import Kfs.Replay.Written

/-!
# The seeds of the ids

The seeds of `fileID` and `chunkID` are not logged: recovery raises them from the ids in the records it
replays. `replay_allocate` returns before it does so when the file is gone, and when the record
matches the chunk that is there.

* `LogRec.Below`: the ids of a record are not above the seeds;
* **`redo_below_iff`**: exactly when replaying a record leaves its ids below the seeds; `redoAll_below`;
* **`handle_seeds`**: a step of the live server raises the seeds past the ids that it logs.
-/

namespace Kfs

variable {env : Env} {fs fs' : Fs} {s : Sys} {o : Out} {l l' : List Meta} {dir fid st : ℤ} {name : Str}

/-! ## The seed of the file ids does not go down -/

/-- The removals that `rename` is run with do not lower the seed. -/
def RmGrows (rm : Fs → ℤ → Str → Option (ℤ × Fs)) : Prop :=
  ∀ ⦃fs dir name st fs'⦄, rm fs dir name = some (st, fs') → fs.fileID ≤ fs'.fileID

theorem mkdir_grows {dname : Str} {newFid id : ℤ}
    (h : mkdir env fs dir dname newFid = some (st, id, fs')) : fs.fileID ≤ fs'.fileID := by
  rcases mkdir_spec h with ⟨-, rfl⟩ | ⟨-, -, -, ⟨-, -, -, rfl⟩ | ⟨-, -, -, rfl⟩ | ⟨-, -, rfl⟩⟩
  · exact le_rfl
  · change fs.fileID ≤ fs.fileID + 1
    omega
  · exact le_rfl
  · exact le_rfl

theorem rmdir_grows {dname : Str} (h : rmdir fs dir dname = some (st, fs')) :
    fs.fileID ≤ fs'.fileID := by
  rcases rmdir_spec h with ⟨-, rfl⟩ | ⟨-, fa, l', -, rfl⟩
  · exact le_rfl
  · exact le_rfl

section

variable {rm : Fs → ℤ → Str → Option (ℤ × Fs)}

theorem clearTarget_grows (hrm : RmGrows rm) {p : RenamePlan}
    (h : clearTarget rm fs p = some (st, fs')) : fs.fileID ≤ fs'.fileID := by
  unfold clearTarget at h
  split_ifs at h
  · exact rmdir_grows h
  · exact hrm h
  · obtain ⟨-, rfl⟩ : 0 = st ∧ fs = fs' := by simpa using h
    exact le_rfl

theorem renameWith_grows (hrm : RmGrows rm) {parent : ℤ} {oldname newname : Str} {overwrite : Bool}
    (h : renameWith rm env fs parent oldname newname overwrite = some (st, fs')) :
    fs.fileID ≤ fs'.fileID := by
  rcases renameWith_spec h with ⟨-, rfl⟩ | ⟨p, hp, ⟨-, hc⟩ | ⟨-, fs₁, l', hc, hl, rfl⟩⟩
  · exact le_rfl
  · exact clearTarget_grows hrm hc
  · have h₁ := clearTarget_grows hrm hc
    exact h₁

theorem moveToDumpsterWith_grows (hrm : RmGrows rm)
    (h : moveToDumpsterWith rm env fs dir name = some (st, fs')) : fs.fileID ≤ fs'.fileID := by
  obtain ⟨fa, fs₁, hg, hmoved⟩ := moveToDumpsterWith_spec h
  have h₁ : fs.fileID ≤ fs₁.fileID := by
    rcases getDumpster_spec hg with ⟨-, rfl⟩ | ⟨-, rfl, -⟩
    · exact le_rfl
    · change fs.fileID ≤ fs.fileID + 1
      omega
  rcases hmoved with ⟨-, -, rfl⟩ | ⟨-, hr⟩
  · exact h₁
  · have h₂ := renameWith_grows hrm hr
    exact h₁.trans h₂

end

theorem removeF_grows (env : Env) : ∀ fuel, RmGrows (removeF fuel env)
  | 0 => by
    intro fs dir name st fs' h
    simp [removeF] at h
  | fuel + 1 => by
    intro fs dir name st fs' h
    rcases removeF_spec h with ⟨-, rfl⟩ | ⟨fa, -, -, -, ⟨-, -, hm⟩ | ⟨-, -, l₁, l', -, -, rfl⟩⟩
    · exact le_rfl
    · exact moveToDumpsterWith_grows (removeF_grows env fuel) hm
    · exact le_rfl

theorem create_grows {newFid id n : ℤ} {exclusive : Bool}
    (h : create env fs dir name newFid n exclusive = some (st, id, fs')) : fs.fileID ≤ fs'.fileID := by
  rcases create_spec h with
    ⟨-, rfl⟩ | ⟨-, -, fa, -, -, st₁, fs₁, hr, hmade⟩
  · exact le_rfl
  · have h₁ : fs.fileID ≤ fs₁.fileID := by
      unfold removeOld at hr
      split_ifs at hr
      · exact removeF_grows env 2 hr
      · obtain ⟨-, rfl⟩ : 0 = st₁ ∧ fs = fs₁ := by simpa using hr
        exact le_rfl
    rcases hmade with ⟨-, -, rfl⟩ | ⟨-, -, -, l', -, rfl⟩
    · exact h₁
    · dsimp only
      split_ifs <;> omega

theorem truncate_grows {offset a : ℤ} (h : truncate env fs fid offset = some (st, a, fs')) :
    fs.fileID ≤ fs'.fileID := by
  rcases truncate_spec h with ⟨-, rfl⟩ | ⟨fa, -, -, -, ⟨-, -, -, rfl⟩ | ⟨-, -, l₁, -, rfl⟩⟩
  all_goals exact le_rfl

theorem changeFileReplication_grows {n : ℤ} (h : changeFileReplication fs fid n = (st, fs')) :
    fs.fileID ≤ fs'.fileID := by
  unfold changeFileReplication at h
  rcases hf : getFattr fs.leaves fid with - | fa
  · obtain ⟨-, rfl⟩ : -ENOENT = st ∧ fs = fs' := by simpa [hf] using h
    exact le_rfl
  · simp only [hf, Prod.mk.injEq] at h
    obtain ⟨-, rfl⟩ := h
    exact le_rfl

theorem cleanupDumpster_grows (h : cleanupDumpster env fs = some fs') : fs.fileID ≤ fs'.fileID :=
  cleanupDumpster_induct (P := fun fs₁ => fs.fileID ≤ fs₁.fileID)
    (fun _ _ _ _ _ h₁ hr => h₁.trans (removeF_grows env 2 hr)) le_rfl h

theorem emptyDumpsterDir_grows (h : emptyDumpsterDir env fs = some fs') : fs.fileID ≤ fs'.fileID := by
  unfold emptyDumpsterDir makeDumpsterDir at h
  simp only [Option.bind_eq_some_iff, Option.map_eq_some_iff, Prod.exists] at h
  obtain ⟨_, ⟨st, id, fs₁, hm, rfl⟩, hc⟩ := h
  exact (mkdir_grows hm).trans (cleanupDumpster_grows hc)

/-! ## Ids below the seeds -/

/-- The file id that a record took from `fileID.genid()`; `mkdir` of `/` takes none. -/
def LogRec.newFid : LogRec → Option ℤ
  | .create _ _ fid _ => some fid
  | .mkdir _ name fid => if name = ['/'] then none else some fid
  | _ => none

/-- The chunk id of a record. -/
def LogRec.newChunk : LogRec → Option ℤ
  | .allocate _ _ cid _ => some cid
  | _ => none

/-- The ids of a record are not above the seeds. -/
structure LogRec.Below (fs : Fs) (r : LogRec) : Prop where
  fid : ∀ fid, r.newFid = some fid → fid ≤ fs.fileID
  chunk : ∀ cid, r.newChunk = some cid → cid ≤ fs.chunkID

/-- No chunk of the tree is above the seed of the chunk ids. -/
structure Seeds (fs : Fs) : Prop where
  root : 0 ≤ fs.fileID
  chunk : ∀ c, .chunkinfo c ∈ fs.leaves → c.chunkId ≤ fs.chunkID

/-- From `fs` to `fs'` the seeds have not gone down. -/
structure Later (fs fs' : Fs) : Prop where
  fileID : fs.fileID ≤ fs'.fileID
  chunkID : fs.chunkID ≤ fs'.chunkID

theorem Later.refl (fs : Fs) : Later fs fs := ⟨le_rfl, le_rfl⟩

theorem Later.trans {fs₁ : Fs} (h₁ : Later fs fs₁) (h₂ : Later fs₁ fs') : Later fs fs' :=
  ⟨h₁.fileID.trans h₂.fileID, h₁.chunkID.trans h₂.chunkID⟩

theorem LogRec.Below.later {r : LogRec} (h : r.Below fs) (hl : Later fs fs') : r.Below fs' :=
  ⟨fun fid hf => (h.fid fid hf).trans hl.fileID, fun cid hc => (h.chunk cid hc).trans hl.chunkID⟩

/-- Edits of entries and attributes keep the chunks below the seed. -/
theorem Seeds.edits (h : Seeds fs) (he : NameEdits fs fs') (hg : fs.fileID ≤ fs'.fileID) :
    Seeds fs' ∧ Later fs fs' := by
  refine ⟨⟨h.root.trans hg, ?_⟩, ⟨hg, he.chunkID.ge⟩⟩
  intro c hc
  rw [he.chunkID]
  exact h.chunk c (he.edits.chunk hc)

theorem mem_linkChunk {c d : MetaChunkInfo} (h : .chunkinfo d ∈ linkChunk env l c) :
    d = c ∨ .chunkinfo d ∈ l := by
  have hins : chunks (linkChunk env l c) = chunks (Leaves.insert l (.chunkinfo c)) := by
    refine chunks_update fun x _ hk => ?_
    obtain ⟨f, rfl, -⟩ := (eqv_fattr x _).mp hk
    exact ⟨rfl, trivial⟩
  have hm := mem_chunks.mp (hins ▸ mem_chunks.mpr h)
  rcases Leaves.mem_insert.mp hm with he | hm
  · exact Or.inl (Meta.chunkinfo.inj he)
  · exact Or.inr hm

/-- The ids of the chunks after `assignChunkId` are those before it, and the one assigned. -/
theorem assignChunkId_ids {offset cid v : ℤ} (ha : assignChunkId env fs fid offset cid v = (st, fs')) :
    fs'.fileID = fs.fileID ∧ fs'.chunkID = fs.chunkID ∧ ∀ d, .chunkinfo d ∈ fs'.leaves →
      d.chunkId = cid ∨ ∃ c, .chunkinfo c ∈ fs.leaves ∧ d.chunkId = c.chunkId := by
  rcases assignChunkId_spec ha with
    ⟨-, -, rfl⟩ | ⟨fa, -, ⟨c, -, -, -, rfl⟩ | ⟨c, hc, -, -, rfl⟩ | ⟨-, -, rfl⟩⟩
  · exact ⟨rfl, rfl, fun d hd => Or.inr ⟨d, hd, rfl⟩⟩
  · exact ⟨rfl, rfl, fun d hd => Or.inr ⟨d, hd, rfl⟩⟩
  · refine ⟨rfl, rfl, fun d hd => Or.inr ?_⟩
    rw [getChunk_eq] at hc
    have hmem := mem_chunks.mp (List.mem_of_find?_eq_some hc)
    rcases Leaves.mem_update hd with hd | ⟨y, -, -, hy⟩
    · exact ⟨d, hd, rfl⟩
    · obtain rfl := Meta.chunkinfo.inj hy
      exact ⟨c, hmem, rfl⟩
  · refine ⟨rfl, rfl, fun d hd => ?_⟩
    rcases mem_linkChunk hd with rfl | hd
    · exact Or.inl rfl
    · exact Or.inr ⟨d, hd, rfl⟩

theorem assignChunkId_seeds {offset cid v : ℤ} (h : Seeds fs) (hc : cid ≤ fs.chunkID)
    (ha : assignChunkId env fs fid offset cid v = (st, fs')) : Seeds fs' ∧ Later fs fs' := by
  obtain ⟨hf, hk, hids⟩ := assignChunkId_ids ha
  refine ⟨⟨hf ▸ h.root, ?_⟩, ⟨hf.ge, hk.ge⟩⟩
  intro d hd
  rw [hk]
  rcases hids d hd with he | ⟨c, hm, he⟩
  · exact he ▸ hc
  · exact he ▸ h.chunk c hm

/-! ## Replay -/

/-- The record is no allocation of a new chunk id that `replay_allocate` passes over: its file is in the
tree, and no chunk of the record's version is at its place. -/
def LogRec.Counted (fs : Fs) : LogRec → Prop
  | .allocate fid offset cid v => cid ≤ fs.chunkID ∨ ((getFattr fs.leaves fid).isSome = true ∧
      (getChunk fs.leaves fid (chunkStartOffset offset)).all (fun c => decide (c.chunkVersion ≠ v)) = true)
  | _ => True

instance (fs : Fs) : (r : LogRec) → Decidable (r.Counted fs)
  | .allocate fid offset cid v => inferInstanceAs (Decidable (cid ≤ fs.chunkID ∨
      ((getFattr fs.leaves fid).isSome = true ∧
        (getChunk fs.leaves fid (chunkStartOffset offset)).all (fun c => decide (c.chunkVersion ≠ v)) = true)))
  | .create .. | .mkdir .. | .remove .. | .rmdir .. | .rename .. | .truncate .. | .chunkVersionInc _ => isTrue trivial

theorem redoAssign_seeds {offset cid v : ℤ} (h : Seeds fs)
    (hr : redoAssign env fs fid offset cid v = some (true, fs')) :
    Seeds fs' ∧ Later fs fs' ∧ cid ≤ fs'.chunkID := by
  unfold redoAssign at hr
  rcases ha : assignChunkId env fs fid offset cid v with ⟨st, fs₁⟩
  obtain ⟨hf, hk, hids⟩ := assignChunkId_ids ha
  simp only [ha] at hr
  -- the seed becomes the larger of the seed and the id
  have hfin : fs'.leaves = fs₁.leaves ∧ fs'.fileID = fs.fileID ∧ fs'.chunkID = max fs.chunkID cid := by
    split_ifs at hr with h0 hlt
    · simp only [updateSeed, Option.map_eq_some_iff, Prod.mk.injEq, true_and, Option.ite_none_left_eq_some,
        Option.some.injEq] at hr
      obtain ⟨seed, ⟨-, rfl⟩, rfl⟩ := hr
      refine ⟨rfl, hf, ?_⟩
      change cid = max fs.chunkID cid
      omega
    · obtain rfl : fs₁ = fs' := by simpa using hr
      refine ⟨rfl, hf, ?_⟩
      omega
    · simp at hr
  obtain ⟨hl, hf', hk'⟩ := hfin
  refine ⟨⟨hf' ▸ h.root, ?_⟩, ⟨hf'.ge, by omega⟩, by omega⟩
  intro d hd
  rw [hl] at hd
  rcases hids d hd with he | ⟨c, hm, he⟩
  · omega
  · have := h.chunk c hm
    omega

/-- `allocateChunkId` during replay finds the chunk at the place of the record, or finds the place free. -/
theorem allocateChunkId_redo {offset cid cid₁ v₁ : ℤ} {fs₁ : Fs} {fa : MetaFattr}
    (hf : getFattr fs.leaves fid = some fa)
    (ha : allocateChunkId fs fid offset cid false = some (st, cid₁, v₁, fs₁)) :
    (∃ c, getChunk fs.leaves fid (chunkStartOffset offset) = some c ∧ st = -EEXIST ∧
        v₁ = c.chunkVersion ∧ fs₁ = fs) ∨
      (getChunk fs.leaves fid (chunkStartOffset offset) = none ∧ st = 0 ∧ (fs₁ = fs ∨ fs₁ = fs.nextChunk)) := by
  unfold allocateChunkId at ha
  simp only [hf, Bool.false_eq_true, false_and, if_false] at ha
  by_cases hal : offset.tmod CHUNKSIZE ≠ 0
  · simp [hal] at ha
  rw [if_neg hal] at ha
  rcases hc : getChunk fs.leaves fid (chunkStartOffset offset) with - | c
  · simp only [hc] at ha
    split_ifs at ha
    · obtain ⟨rfl, -, -, rfl⟩ : 0 = st ∧ fs.chunkID + 1 = cid₁ ∧ fs.chunkVersionInc = v₁ ∧ fs.nextChunk = fs₁ := by
        simpa [Fs.nextChunk] using ha
      exact Or.inr ⟨rfl, rfl, Or.inr rfl⟩
    · obtain ⟨rfl, -, -, rfl⟩ : 0 = st ∧ cid = cid₁ ∧ 0 = v₁ ∧ fs = fs₁ := by simpa using ha
      exact Or.inr ⟨rfl, rfl, Or.inl rfl⟩
  · obtain ⟨rfl, -, rfl, rfl⟩ : -EEXIST = st ∧ c.chunkId = cid₁ ∧ c.chunkVersion = v₁ ∧ fs = fs₁ := by
      simpa [hc] using ha
    exact Or.inl ⟨c, rfl, rfl, rfl, rfl⟩

theorem Seeds.nextChunk (h : Seeds fs) : Seeds fs.nextChunk ∧ Later fs fs.nextChunk := by
  have hle : fs.chunkID ≤ fs.nextChunk.chunkID := by
    change fs.chunkID ≤ fs.chunkID + 1
    omega
  exact ⟨⟨h.root, fun c hc => (h.chunk c hc).trans hle⟩, ⟨le_rfl, hle⟩⟩

theorem redoAllocate_seeds {offset cid v : ℤ} (h : Seeds fs)
    (hr : redoAllocate env fs fid offset cid v = some (true, fs')) :
    Seeds fs' ∧ Later fs fs' ∧ (cid ≤ fs'.chunkID ↔ (LogRec.allocate fid offset cid v).Counted fs) := by
  unfold redoAllocate at hr
  rcases hf : getFattr fs.leaves fid with - | fa
  · -- the file is gone
    obtain rfl : fs = fs' := by simpa [hf] using hr
    exact ⟨h, .refl _, by simp [LogRec.Counted, hf]⟩
  simp only [hf] at hr
  rcases ha : allocateChunkId fs fid offset cid false with - | ⟨st, cid₁, v₁, fs₁⟩
  · simp [ha] at hr
  simp only [ha] at hr
  rcases allocateChunkId_redo hf ha with ⟨c, hc, rfl, rfl, rfl⟩ | ⟨hc, rfl, hfs₁⟩
  · simp only [true_and, true_or, if_true] at hr
    split_ifs at hr with hv hid
    · -- the chunk is there with this version
      obtain rfl : fs₁ = fs' := by simpa using hr
      exact ⟨h, .refl _, by simp [LogRec.Counted, hf, hc, hv]⟩
    · obtain ⟨h', hl, hle⟩ := redoAssign_seeds h hr
      exact ⟨h', hl, iff_of_true (by omega) (Or.inr ⟨by simp [hf], by simp [hc, hv]⟩)⟩
  · have hne : ¬ ((0 : ℤ) = -EEXIST) := by decide
    simp only [hne, false_and, false_or, if_false, if_true] at hr
    split_ifs at hr with hid
    have h₁ : Seeds fs₁ ∧ Later fs fs₁ := by
      rcases hfs₁ with rfl | rfl
      · exact ⟨h, .refl _⟩
      · exact h.nextChunk
    obtain ⟨h', hl, hle⟩ := redoAssign_seeds h₁.1 hr
    exact ⟨h', h₁.2.trans hl, iff_of_true (by omega) (Or.inr ⟨by simp [hf], by simp [hc]⟩)⟩

/-- The end of `replay_create` and `replay_mkdir`. -/
theorem redoNew_seeds {id₀ : ℤ} {r : Option (ℤ × ℤ × Fs)} (h : Seeds fs)
    (hop : ∀ st id fs₁, r = some (st, id, fs₁) → NameEdits fs fs₁ ∧ fs.fileID ≤ fs₁.fileID ∧
      (st = 0 → id₀ ≤ max 0 id))
    (hr : redoNew r = some (true, fs')) : Seeds fs' ∧ Later fs fs' ∧ id₀ ≤ fs'.fileID := by
  rcases r with - | ⟨st, id, fs₁⟩
  · simp [redoNew] at hr
  obtain ⟨he, hg, hid⟩ := hop st id fs₁ rfl
  obtain ⟨h₁, hl₁⟩ := h.edits he hg
  simp only [redoNew] at hr
  by_cases h0 : st = 0
  swap
  · simp [h0] at hr
  simp only [if_pos h0, updateSeed, Option.map_eq_some_iff, Prod.mk.injEq, true_and, Option.ite_none_left_eq_some,
    Option.some.injEq] at hr
  obtain ⟨seed, ⟨hle, rfl⟩, rfl⟩ := hr
  have hup : Later fs₁ { fs₁ with fileID := id } := ⟨by dsimp only; omega, le_rfl⟩
  have hroot := h₁.root
  refine ⟨⟨?_, h₁.chunk⟩, hl₁.trans hup, ?_⟩
  · dsimp only
    omega
  · have := hid h0
    dsimp only
    omega

theorem redoStatus_eq {r : Option (ℤ × Fs)} (h : redoStatus r = some (true, fs')) : r = some (0, fs') := by
  rcases r with - | ⟨st, fs₁⟩
  · simp [redoStatus] at h
  · simpa [redoStatus] using h

/-- A record without ids that edits entries and attributes. -/
theorem Seeds.redo_edits {r : LogRec} (h : Seeds fs) (he : NameEdits fs fs') (hg : fs.fileID ≤ fs'.fileID)
    (hf : r.newFid = none) (hc : r.newChunk = none) (hk : r.Counted fs) :
    Seeds fs' ∧ Later fs fs' ∧ (r.Below fs' ↔ r.Counted fs) := by
  obtain ⟨h', hl⟩ := h.edits he hg
  exact ⟨h', hl, iff_of_true ⟨by simp [hf], by simp [hc]⟩ hk⟩

/-- **Replaying a record leaves its ids below the seeds exactly when it is counted.** -/
theorem redo_below_iff {r : LogRec} (h : Seeds fs) (hr : redo env fs r = some (true, fs')) :
    Seeds fs' ∧ Later fs fs' ∧ (r.Below fs' ↔ r.Counted fs) := by
  cases r with
  | create dir name fid n =>
    have hop : ∀ st id fs₁, create env fs dir name fid n false = some (st, id, fs₁) →
        NameEdits fs fs₁ ∧ fs.fileID ≤ fs₁.fileID ∧ (st = 0 → fid ≤ max 0 id) := by
      intro st id fs₁ hc
      refine ⟨create_edits hc, create_grows hc, fun h0 => ?_⟩
      rcases create_spec hc with ⟨hlt, -⟩ | ⟨-, -, fa, -, -, st₁, fs₂, -, ⟨hb, he, -⟩ | ⟨-, -, hid, -⟩⟩
      · omega
      · rw [he, hb] at h0
        exact absurd h0 (by decide)
      · split_ifs at hid <;> omega
    obtain ⟨h', hl, hle⟩ := redoNew_seeds h hop hr
    refine ⟨h', hl, iff_of_true ⟨?_, by simp [LogRec.newChunk]⟩ trivial⟩
    intro fid' hf
    exact Option.some.inj hf ▸ hle
  | mkdir dir name fid =>
    by_cases hroot : name = ['/']
    · have hop : ∀ st id fs₁, mkdir env fs dir name fid = some (st, id, fs₁) →
          NameEdits fs fs₁ ∧ fs.fileID ≤ fs₁.fileID ∧ (st = 0 → (0 : ℤ) ≤ max 0 id) := by
        intro st id fs₁ hc
        exact ⟨mkdir_edits hc, mkdir_grows hc, fun _ => le_max_left 0 id⟩
      obtain ⟨h', hl, -⟩ := redoNew_seeds h hop hr
      exact ⟨h', hl, iff_of_true ⟨by simp [LogRec.newFid, hroot], by simp [LogRec.newChunk]⟩ trivial⟩
    · have hop : ∀ st id fs₁, mkdir env fs dir name fid = some (st, id, fs₁) →
          NameEdits fs fs₁ ∧ fs.fileID ≤ fs₁.fileID ∧ (st = 0 → fid ≤ max 0 id) := by
        intro st id fs₁ hc
        refine ⟨mkdir_edits hc, mkdir_grows hc, fun h0 => ?_⟩
        rcases mkdir_spec hc with ⟨hlt, -⟩ | ⟨-, -, -, ⟨hz, -⟩ | ⟨hz, -⟩ | ⟨-, hid, -⟩⟩ <;> omega
      obtain ⟨h', hl, hle⟩ := redoNew_seeds h hop hr
      refine ⟨h', hl, iff_of_true ⟨?_, by simp [LogRec.newChunk]⟩ trivial⟩
      intro fid' hf
      simp only [LogRec.newFid, if_neg hroot, Option.some.injEq] at hf
      exact hf ▸ hle
  | remove dir name =>
    have hop := redoStatus_eq hr
    exact h.redo_edits (removeF_edits env 2 hop) (removeF_grows env 2 hop) rfl rfl trivial
  | rmdir dir name =>
    have hop := redoStatus_eq hr
    exact h.redo_edits (rmdir_edits hop) (rmdir_grows hop) rfl rfl trivial
  | rename dir oldname newname =>
    have hop := redoStatus_eq hr
    exact h.redo_edits (renameWith_edits (removeF_edits env 2) hop) (renameWith_grows (removeF_grows env 2) hop)
      rfl rfl trivial
  | allocate fid offset cid v =>
    obtain ⟨h', hl, hiff⟩ := redoAllocate_seeds h hr
    refine ⟨h', hl, ?_⟩
    rw [← hiff]
    exact ⟨fun hb => hb.chunk cid rfl, fun hc => ⟨by simp [LogRec.newFid], fun _ he => Option.some.inj he ▸ hc⟩⟩
  | truncate fid offset =>
    rcases ht : truncate env fs fid offset with - | ⟨st, a, fs₁⟩
    · simp [redo, ht] at hr
    · obtain ⟨-, rfl⟩ : st = 0 ∧ fs₁ = fs' := by simpa [redo, ht] using hr
      exact h.redo_edits (truncate_edits ht) (truncate_grows ht) rfl rfl trivial
  | chunkVersionInc n =>
    obtain ⟨-, rfl⟩ : 1 ≤ n ∧ { fs with chunkVersionInc := n } = fs' := by simpa [redo] using hr
    exact ⟨⟨h.root, h.chunk⟩, ⟨le_rfl, le_rfl⟩,
      iff_of_true ⟨by simp [LogRec.newFid], by simp [LogRec.newChunk]⟩ trivial⟩

/-- Every record is counted when its turn comes. -/
def AllCounted (env : Env) (fs : Fs) : List LogRec → Prop
  | [] => True
  | r :: rs =>
    r.Counted fs ∧
      match redo env fs r with
      | some (true, fs') => AllCounted env fs' rs
      | _ => True

instance AllCounted.decide (env : Env) : ∀ (rs : List LogRec) (fs : Fs), Decidable (AllCounted env fs rs)
  | [], _ => isTrue trivial
  | r :: rs, fs =>
    have : Decidable (match redo env fs r with
        | some (true, fs') => AllCounted env fs' rs
        | _ => True) :=
      match redo env fs r with
      | some (true, fs') => AllCounted.decide env rs fs'
      | some (false, _) => isTrue trivial
      | none => isTrue trivial
    inferInstanceAs (Decidable (_ ∧ _))

/-- The run lemma for `redo_below_iff`. -/
theorem redoAll_below : ∀ {rs : List LogRec} {fs : Fs}, Seeds fs → AllCounted env fs rs →
    redoAll env fs rs = some (true, fs') → Seeds fs' ∧ Later fs fs' ∧ ∀ r ∈ rs, r.Below fs'
  | [], fs, h, _, hr => by
    obtain rfl : fs = fs' := by simpa [redoAll] using hr
    exact ⟨h, .refl _, by simp⟩
  | r :: rs, fs, h, ⟨hc, hcs⟩, hr => by
    rw [redoAll] at hr
    rcases hd : redo env fs r with - | ⟨b, fs₁⟩
    · simp [hd] at hr
    cases b with
    | false => simp [hd] at hr
    | true =>
      simp only [hd] at hr hcs
      obtain ⟨h₁, hl₁, hiff⟩ := redo_below_iff h hd
      obtain ⟨h', hl, hbs⟩ := redoAll_below h₁ hcs hr
      refine ⟨h', hl₁.trans hl, ?_⟩
      intro r' hr'
      rcases List.mem_cons.mp hr' with rfl | hr'
      · exact (hiff.mpr hc).later hl
      · exact hbs r' hr'

/-! ## The live server -/

/-- The ids of the tree and of the waiting allocations are not above the seeds. -/
structure SysSeeds (s : Sys) : Prop where
  fs : Seeds s.fs
  pending : ∀ a ∈ s.pending, a.chunkId ≤ s.fs.chunkID

theorem SysSeeds.edits (h : SysSeeds s) (he : NameEdits s.fs fs') (hg : s.fs.fileID ≤ fs'.fileID) :
    SysSeeds { s with fs := fs' } ∧ Later s.fs fs' := by
  obtain ⟨h', hl⟩ := h.fs.edits he hg
  exact ⟨⟨h', fun a ha => (h.pending a ha).trans hl.chunkID⟩, hl⟩

/-- A request that edits entries and attributes, with a record whose file id is not above the seed. -/
theorem SysSeeds.done {r : LogRec} (h : SysSeeds s) (he : NameEdits s.fs fs') (hg : s.fs.fileID ≤ fs'.fileID)
    (hf : st = 0 → ∀ fid, r.newFid = some fid → fid ≤ fs'.fileID) (hc : r.newChunk = none) :
    SysSeeds (done s st fs' r).sys ∧ Later s.fs (done s st fs' r).sys.fs ∧
      ∀ r' ∈ (done s st fs' r).log, r'.Below (done s st fs' r).sys.fs := by
  obtain ⟨h', hl⟩ := h.edits he hg
  refine ⟨h', hl, ?_⟩
  intro r' hr'
  obtain ⟨h0, rfl⟩ := done_log hr'
  exact ⟨hf h0, by simp [hc]⟩

theorem startAllocate_seeds {offset : ℤ} {reply : LeaseReply} {placed : Bool} (h : SysSeeds s)
    (ha : startAllocate s fid offset reply placed = some o) :
    SysSeeds o.sys ∧ Later s.fs o.sys.fs ∧ ∀ r ∈ o.log, r.Below o.sys.fs := by
  obtain ⟨hn, hln⟩ := h.fs.nextChunk
  have hnext : SysSeeds { s with fs := s.fs.nextChunk } :=
    ⟨hn, fun a ha => (h.pending a ha).trans hln.chunkID⟩
  have hwait : ∀ {t : Sys} {a : Alloc}, SysSeeds t → a.chunkId ≤ t.fs.chunkID →
      SysSeeds { t with pending := t.pending ++ [a] } := by
    intro t a ht hle
    refine ⟨ht.fs, fun b hb => ?_⟩
    rcases List.mem_append.mp hb with hb | hb
    · exact ht.pending b hb
    · exact List.mem_singleton.mp hb ▸ hle
  have hchunk : ∀ {c : MetaChunkInfo}, getChunk s.fs.leaves fid (chunkStartOffset offset) = some c →
      c.chunkId ≤ s.fs.chunkID := by
    intro c hc
    rw [getChunk_eq] at hc
    exact h.fs.chunk c (mem_chunks.mp (List.mem_of_find?_eq_some hc))
  rcases startAllocate_spec ha with
    ⟨-, rfl⟩ | ⟨fa, -, -, -, ⟨c, hc, ⟨st, -, rfl⟩ | ⟨-, rfl⟩ | ⟨-, rfl⟩⟩ | ⟨-, ⟨-, rfl⟩ | ⟨-, rfl⟩⟩⟩
  · exact ⟨h, .refl _, by simp [refuse]⟩
  · exact ⟨h, .refl _, by simp [refuse]⟩
  · refine ⟨h, .refl _, ?_⟩
    intro r hr
    obtain ⟨-, rfl⟩ := done_log hr
    exact ⟨by simp [LogRec.newFid], fun _ he => Option.some.inj he ▸ hchunk hc⟩
  · exact ⟨hwait h (hchunk hc), .refl _, by simp⟩
  · exact ⟨hwait hnext le_rfl, hln, by simp⟩
  · exact ⟨hnext, hln, by simp [refuse]⟩

theorem changeIncarnationNumber_seeds (h : SysSeeds s) :
    SysSeeds (changeIncarnationNumber s).sys ∧ Later s.fs (changeIncarnationNumber s).sys.fs ∧
      ∀ r ∈ (changeIncarnationNumber s).log, r.Below (changeIncarnationNumber s).sys.fs := by
  unfold changeIncarnationNumber
  dsimp only
  split_ifs
  · refine ⟨⟨⟨h.fs.root, h.fs.chunk⟩, h.pending⟩, ⟨le_rfl, le_rfl⟩, ?_⟩
    intro r hr
    obtain ⟨-, rfl⟩ := done_log hr
    exact ⟨by simp [LogRec.newFid], by simp [LogRec.newChunk]⟩
  · refine ⟨h, .refl _, ?_⟩
    intro r hr
    obtain ⟨-, rfl⟩ := done_log hr
    exact ⟨by simp [LogRec.newFid], by simp [LogRec.newChunk]⟩

/-- **A step of the live server** raises the seeds past the ids that it logs. -/
theorem handle_seeds {req : Req} (h : SysSeeds s) (ho : Handled env s req o) :
    SysSeeds o.sys ∧ Later s.fs o.sys.fs ∧ ∀ r ∈ o.log, r.Below o.sys.fs := by
  cases ho with
  | refused => exact ⟨h, .refl _, by simp [refuse]⟩
  | create hd hc =>
    refine h.done (create_edits hc) (create_grows hc) (fun h0 fid hf => ?_) rfl
    obtain rfl := Option.some.inj hf
    rcases create_spec hc with ⟨hlt, -⟩ | ⟨-, -, fa, -, -, st₁, fs₁, -, ⟨hb, he, -⟩ | ⟨-, -, hid, l', -, rfl⟩⟩
    · omega
    · rw [he, hb] at h0
      exact absurd h0 (by decide)
    · simpa using hid.le
  | mkdir hd hm =>
    refine h.done (mkdir_edits hm) (mkdir_grows hm) (fun h0 fid hf => ?_) rfl
    simp only [LogRec.newFid, Option.ite_none_left_eq_some, Option.some.injEq] at hf
    obtain ⟨hne, rfl⟩ := hf
    rcases mkdir_spec hm with ⟨hlt, -⟩ | ⟨-, -, -, ⟨-, -, hid, rfl⟩ | ⟨-, hroot, -⟩ | ⟨hz, -⟩⟩
    · omega
    · exact hid.le
    · exact absurd hroot hne
    · exact absurd rfl hz
  | remove hr => exact h.done (removeF_edits env 2 hr) (removeF_grows env 2 hr) (by simp [LogRec.newFid]) rfl
  | rmdir hr => exact h.done (rmdir_edits hr) (rmdir_grows hr) (by simp [LogRec.newFid]) rfl
  | rename hr =>
    exact h.done (renameWith_edits (removeF_edits env 2) hr) (renameWith_grows (removeF_grows env 2) hr)
      (by simp [LogRec.newFid]) rfl
  | allocate ha => exact startAllocate_seeds h ha
  | @assigned i a st fs' hi ha =>
    have hle := h.pending a (List.mem_of_getElem? hi)
    obtain ⟨h', hl⟩ := assignChunkId_seeds h.fs hle ha
    refine ⟨⟨h', fun b hb => ?_⟩, hl, ?_⟩
    · exact (h.pending b (List.mem_of_mem_eraseIdx hb)).trans hl.chunkID
    · intro r hr
      obtain ⟨-, rfl⟩ := done_log hr
      exact ⟨by simp [LogRec.newFid], fun _ he => Option.some.inj he ▸ hle.trans hl.chunkID⟩
  | layoutFailed hi =>
    exact changeIncarnationNumber_seeds (s := { s with pending := _ })
      ⟨h.fs, fun b hb => h.pending b (List.mem_of_mem_eraseIdx hb)⟩
  | truncate hc => exact h.done (truncate_edits hc) (truncate_grows hc) (by simp [LogRec.newFid]) rfl
  | truncateAlloc hc hst ha =>
    obtain ⟨h₁, hl₁⟩ := h.edits (truncate_edits hc) (truncate_grows hc)
    obtain ⟨h', hl, -⟩ := startAllocate_seeds h₁ ha
    exact ⟨h', hl₁.trans hl, by simp⟩
  | changeFileReplication hc =>
    obtain ⟨h', hl⟩ := h.edits (changeFileReplication_edits hc) (changeFileReplication_grows hc)
    exact ⟨h', hl, by simp⟩
  | changeIncarnationNumber => exact changeIncarnationNumber_seeds h
  | cleanupDumpster hc =>
    obtain ⟨h', hl⟩ := h.edits (cleanupDumpster_edits hc) (cleanupDumpster_grows hc)
    exact ⟨h', hl, by simp⟩
  | emptyDumpsterDir hc =>
    obtain ⟨h', hl⟩ := h.edits (emptyDumpsterDir_edits hc) (emptyDumpsterDir_grows hc)
    exact ⟨h', hl, by simp⟩

end Kfs
