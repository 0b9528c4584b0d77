import Mathlib.Algebra.Order.BigOperators.Group.Finset
import Kfs.Chunk.Once

/-!
# The space that chunks take

`mUsedSpace` and `mNumChunks` are kept beside the chunk table, each operation adjusts them by itself.

* `Space`, `ChunkOp`, `Space.step`: the operations that change the table or the size of a chunk;
* `Changed`: what one of them does to the sizes and the counters;
* `Accounted`, **`run_accounted`**: the counters agree with the table, as long as chunks are not truncated beyond the
  space that is left and the files that are restored are of different chunks and fit.
-/

namespace Kfs.Chunk

open ChunkManager

/-- The chunk server with the number of its chunks. -/
structure Space where
  cs : Cs
  mNumChunks : ℤ

/-- A file in a chunk directory. -/
structure ChunkFile where
  chunkId : ℕ
  chunkVersion : ℤ
  filesz : ℕ
  data : File

namespace Space

variable (env : Env) (s : Space)

def AllocChunk (c : ℕ) (v : ℤ) : Space where
  cs := (ChunkManager.AllocChunk env s.cs c v).1
  mNumChunks := if (s.cs.mChunkTable c).isNone ∧ env.create then s.mNumChunks + 1 else s.mNumChunks

/-- `DeleteChunk` unlinks the file, `StaleChunk` moves it away. -/
def removeChunk (c : ℕ) : Option Space :=
  match s.cs.mChunkTable c with
  | none => some s
  | some _ => if s.mNumChunks - 1 < 0 then none else some ⟨ChunkManager.removeChunk s.cs c, s.mNumChunks - 1⟩

def AddMapping (c : ℕ) (cih : ChunkInfoHandle) : Space where
  cs := { setEntry s.cs c (some cih) with mUsedSpace := s.cs.mUsedSpace + cih.chunkSize }
  mNumChunks := s.mNumChunks + 1

/-- What is behind the header of a chunk file is the chunk; its checksums are not loaded. -/
def MakeChunkInfoFromPathname (f : ChunkFile) : ChunkInfoHandle where
  chunkVersion := f.chunkVersion
  chunkSize := if f.filesz ≥ KFS_CHUNK_HEADER_SIZE then f.filesz - KFS_CHUNK_HEADER_SIZE else 0
  chunkBlockChecksum := none
  readChunkMetaOp := none
  file := s.cs.nextFile

/-- A file of a chunk directory is entered into the table. -/
def restore (f : ChunkFile) : Space :=
  let s := s.AddMapping f.chunkId (s.MakeChunkInfoFromPathname f)
  { s with cs := { s.cs with files := Function.update s.cs.files s.cs.nextFile f.data, nextFile := s.cs.nextFile + 1 } }

def RestoreV2 : List ChunkFile → Space → Space
  | [], s => s
  | f :: files, s => RestoreV2 files (s.restore f)

/-- A chunk server that has no chunks yet. -/
def empty (mTotalSpace : ℤ) : Space := ⟨Cs.idle mTotalSpace, 0⟩

end Space

/-- The operations that concern the table. `WriteChunk` writes for the operation `clnt`, `Restart` is a new process that
finds `files` in the chunk directories. -/
inductive ChunkOp
  | AllocChunk (chunkId : ℕ) (chunkVersion : ℤ)
  | DeleteChunk (chunkId : ℕ)
  | StaleChunk (chunkId : ℕ)
  | TruncateChunk (chunkId chunkSize : ℕ)
  | WriteChunk (clnt : KfsOp) (w : WriteOp)
  | AddMapping (chunkId : ℕ) (cih : ChunkInfoHandle)
  | Restart (files : List ChunkFile)
  | ChangeChunkVers (chunkId : ℕ) (chunkVersion : ℤ)
  | SetChunkMetadata (chunkId : ℕ) (checksums : ℕ → UInt32)
  | CloseChunk (chunkId : ℕ)

/-- `none` is an assertion that fails. -/
def Space.step (env : Env) (s : Space) : ChunkOp → Option Space
  | .AllocChunk c v => some (s.AllocChunk env c v)
  | .DeleteChunk c => s.removeChunk c
  | .StaleChunk c => s.removeChunk c
  | .TruncateChunk c size => (TruncateChunk env s.cs c size).map fun r => { s with cs := r.1 }
  | .WriteChunk clnt w => (WriteChunk env s.cs clnt w).map fun r => { s with cs := r.1 }
  | .AddMapping c cih => some (s.AddMapping c cih)
  | .Restart files => some (Space.RestoreV2 files (Space.empty s.cs.mTotalSpace))
  | .ChangeChunkVers c v => some { s with cs := (ChangeChunkVers s.cs c v).1 }
  | .SetChunkMetadata c checksums => some { s with cs := (SetChunkMetadata s.cs c checksums).1 }
  | .CloseChunk c => some { s with cs := releaseChunk s.cs c }

/-- A run in which `C` holds of every step. -/
def Space.run (C : Env → Space → ChunkOp → Bool) : List (Env × ChunkOp) → Space → Option Space
  | [], s => some s
  | (env, op) :: ops, s =>
    if C env s op then
      match s.step env op with
      | none => none
      | some s => Space.run C ops s
    else none

/-! ## The account -/

/-- The sizes of the chunks. -/
def Cs.sizes (st : Cs) (c : ℕ) : Option ℕ := (st.mChunkTable c).map ChunkInfoHandle.chunkSize

/-- The counters agree with the table. -/
structure Accounted (s : Space) (chunks : Finset ℕ) : Prop where
  table : ∀ c, (s.cs.sizes c).isSome = true ↔ c ∈ chunks
  used : s.cs.mUsedSpace = ∑ c ∈ chunks, ((s.cs.sizes c).getD 0 : ℤ)
  num : s.mNumChunks = chunks.card
  bound : s.cs.mUsedSpace ≤ s.cs.mTotalSpace

/-- One chunk has got the size `v`, or is gone, and the counters go along. -/
structure Changed (c : ℕ) (v : Option ℕ) (s s' : Space) : Prop where
  sizes : s'.cs.sizes = Function.update s.cs.sizes c v
  used : s'.cs.mUsedSpace = s.cs.mUsedSpace - (s.cs.sizes c).getD 0 + v.getD 0
  num : s'.mNumChunks = s.mNumChunks - (if (s.cs.sizes c).isSome then 1 else 0) + if v.isSome then 1 else 0
  total : s'.cs.mTotalSpace = s.cs.mTotalSpace

variable {s s' : Space} {chunks : Finset ℕ} {c : ℕ} {v : Option ℕ} {env : Env} {st st' : Cs}

theorem Accounted.nonneg (h : Accounted s chunks) : 0 ≤ s.cs.mUsedSpace := by
  rw [h.used]
  exact Finset.sum_nonneg fun c _ => Int.natCast_nonneg _

/-- Without the chunk `c`. -/
theorem Accounted.erase (h : Accounted s chunks) :
    s.cs.mUsedSpace = ∑ a ∈ chunks.erase c, ((s.cs.sizes a).getD 0 : ℤ) + (s.cs.sizes c).getD 0 ∧
      s.mNumChunks = (chunks.erase c).card + if (s.cs.sizes c).isSome then 1 else 0 := by
  rw [h.used, h.num]
  by_cases hc : c ∈ chunks
  · rw [if_pos ((h.table c).mpr hc)]
    have hcard := Finset.card_erase_add_one hc
    exact ⟨(Finset.sum_erase_add _ _ hc).symm, by omega⟩
  · have hnone : s.cs.sizes c = none := by simpa using mt (h.table c).mp hc
    rw [Finset.erase_eq_of_notMem hc, hnone]
    simp

/-- **A chunk that changes with its counters keeps the account.** -/
theorem Changed.accounted (h : Changed c v s s') (ha : Accounted s chunks)
    (hbound : s'.cs.mUsedSpace ≤ s'.cs.mTotalSpace) : ∃ chunks', Accounted s' chunks' := by
  obtain ⟨hused, hnum⟩ := ha.erase (c := c)
  have hother : ∀ a ∈ chunks.erase c, s'.cs.sizes a = s.cs.sizes a := fun a ha => by
    rw [h.sizes, Function.update_of_ne (Finset.ne_of_mem_erase ha)]
  have hsame : s'.cs.sizes c = v := by rw [h.sizes, Function.update_self]
  have hsum : ∑ a ∈ chunks.erase c, ((s'.cs.sizes a).getD 0 : ℤ) = ∑ a ∈ chunks.erase c, ((s.cs.sizes a).getD 0 : ℤ) :=
    Finset.sum_congr rfl fun a ha => by rw [hother a ha]
  have htable : ∀ a, a ≠ c → ((s'.cs.sizes a).isSome = true ↔ a ∈ chunks) := fun a hne => by
    rw [h.sizes, Function.update_of_ne hne]
    exact ha.table a
  have hu := h.used
  have hn := h.num
  cases v with
  | none =>
    refine ⟨chunks.erase c, fun a => ?_, ?_, ?_, hbound⟩
    · by_cases hac : a = c
      · subst hac
        simp [hsame]
      · rw [htable a hac, Finset.mem_erase]
        exact ⟨fun h => ⟨hac, h⟩, And.right⟩
    · rw [hsum, hu, hused, Option.getD_none]
      omega
    · simp only [Option.isSome_none, Bool.false_eq_true, if_false] at hn
      omega
  | some n =>
    refine ⟨insert c (chunks.erase c), fun a => ?_, ?_, ?_, hbound⟩
    · by_cases hac : a = c
      · subst hac
        simp [hsame]
      · rw [htable a hac, Finset.mem_insert, Finset.mem_erase]
        exact ⟨fun h => .inr ⟨hac, h⟩, fun h => (h.resolve_left hac).2⟩
    · rw [Finset.sum_insert (Finset.notMem_erase c chunks), hsum, hsame, hu, hused, Option.getD_some]
      omega
    · rw [Finset.card_insert_of_notMem (Finset.notMem_erase c chunks)]
      simp only [Option.isSome_some, if_true] at hn
      omega

/-! ## Operations -/

theorem sizes_setEntry {e : Option ChunkInfoHandle} :
    (setEntry st c e).sizes = Function.update st.sizes c (e.map ChunkInfoHandle.chunkSize) := by
  funext a
  unfold Cs.sizes setEntry
  by_cases h : a = c
  · subst h
    simp
  · simp [h]

/-- Neither the sizes nor the counters change. -/
theorem Changed.same (hs : st'.sizes = s.cs.sizes) (hu : st'.mUsedSpace = s.cs.mUsedSpace)
    (ht : st'.mTotalSpace = s.cs.mTotalSpace) : Changed c (s.cs.sizes c) s { s with cs := st' } where
  sizes := by rw [Function.update_eq_self, hs]
  used := by
    rw [hu]
    omega
  num := by
    dsimp only
    omega
  total := ht

/-- An entry is replaced by one of the same size. -/
theorem sizes_keep {cih cih' : ChunkInfoHandle} (hc : st.mChunkTable c = some cih)
    (hsize : cih'.chunkSize = cih.chunkSize) :
    (setEntry st c (some cih')).sizes = st.sizes := by
  have hold : st.sizes c = some cih.chunkSize := by simp [Cs.sizes, hc]
  rw [sizes_setEntry, Option.map_some, hsize, ← hold, Function.update_eq_self]

theorem ChangeChunkVers_changed {n : ℤ} : Changed c (s.cs.sizes c) s { s with cs := (ChangeChunkVers s.cs c n).1 } := by
  unfold ChangeChunkVers
  cases hc : s.cs.mChunkTable c with
  | none => exact .same rfl rfl rfl
  | some cih => exact .same (sizes_keep hc rfl) rfl rfl

theorem SetChunkMetadata_changed {checksums : ℕ → UInt32} :
    Changed c (s.cs.sizes c) s { s with cs := (SetChunkMetadata s.cs c checksums).1 } := by
  unfold SetChunkMetadata
  cases hc : s.cs.mChunkTable c with
  | none => exact .same rfl rfl rfl
  | some cih => exact .same (sizes_keep hc rfl) rfl rfl

theorem releaseChunk_changed : Changed c (s.cs.sizes c) s { s with cs := releaseChunk s.cs c } := by
  unfold releaseChunk
  cases hc : s.cs.mChunkTable c with
  | none => exact .same rfl rfl rfl
  | some cih => exact .same (sizes_keep hc rfl) rfl rfl

theorem AllocChunk_changed {n : ℤ} : ∃ v, Changed c v s (s.AllocChunk env c n) ∧ (s.AllocChunk env c n).cs.mUsedSpace =
    s.cs.mUsedSpace := by
  unfold Space.AllocChunk AllocChunk
  cases hc : s.cs.mChunkTable c with
  | some cih =>
    refine ⟨_, ChangeChunkVers_changed (n := n), ?_⟩
    simp [ChangeChunkVers, hc, setEntry]
  | none =>
    have hnone : s.cs.sizes c = none := by simp [Cs.sizes, hc]
    by_cases hcreate : env.create = true
    · refine ⟨some 0, ⟨?_, ?_, ?_, ?_⟩, ?_⟩
      · simp only [hcreate, if_true]
        exact sizes_setEntry
      all_goals simp [hcreate, hnone, setEntry]
    · refine ⟨none, ⟨?_, ?_, ?_, ?_⟩, ?_⟩
      · simp [hcreate, ← hnone]
      all_goals simp [hcreate, hnone]

/-- The assertion that counts the chunks holds. -/
theorem removeChunk_changed (h : Accounted s chunks) : ∃ s', s.removeChunk c = some s' ∧ Changed c none s s' := by
  obtain ⟨-, hnum⟩ := h.erase (c := c)
  unfold Space.removeChunk removeChunk
  cases hc : s.cs.mChunkTable c with
  | none =>
    have hnone : s.cs.sizes c = none := by simp [Cs.sizes, hc]
    exact ⟨s, rfl, hnone ▸ .same rfl rfl rfl⟩
  | some cih =>
    have hold : s.cs.sizes c = some cih.chunkSize := by simp [Cs.sizes, hc]
    rw [hold, Option.isSome_some, if_pos rfl] at hnum
    dsimp only
    rw [if_neg (by omega)]
    exact ⟨_, rfl, ⟨sizes_setEntry, by simp [hold], by simp [hold], rfl⟩⟩

theorem AddMapping_changed {cih : ChunkInfoHandle} (hnone : s.cs.mChunkTable c = none) :
    Changed c (some cih.chunkSize) s (s.AddMapping c cih) := by
  have hnone : s.cs.sizes c = none := by simp [Cs.sizes, hnone]
  exact ⟨sizes_setEntry, by simp [Space.AddMapping, hnone], by simp [Space.AddMapping, hnone], rfl⟩

theorem restore_changed {f : ChunkFile} (hnone : s.cs.mChunkTable f.chunkId = none) :
    Changed f.chunkId (some (s.MakeChunkInfoFromPathname f).chunkSize) s (s.restore f) := by
  obtain ⟨hs, hu, hn, ht⟩ := @AddMapping_changed s f.chunkId (s.MakeChunkInfoFromPathname f) hnone
  exact ⟨hs, hu, hn, ht⟩

/-- A truncation fails, or sets the size. -/
theorem TruncateChunk_changed {size : ℕ} {res : ℤ} (h : TruncateChunk env s.cs c size = some (st', res)) :
    ∃ v, Changed c v s { s with cs := st' } ∧ (st' = s.cs ∨ (size ≤ CHUNKSIZE ∧ env.truncate = none ∧
      ∃ cih, s.cs.mChunkTable c = some cih ∧ st'.mUsedSpace = s.cs.mUsedSpace - cih.chunkSize + size)) := by
  have hsame : Changed c (s.cs.sizes c) s { s with cs := s.cs } := .same rfl rfl rfl
  unfold TruncateChunk at h
  split_ifs at h with hbig
  · obtain rfl := (Prod.mk.inj (Option.some.inj h)).1
    exact ⟨_, hsame, .inl rfl⟩
  cases hc : s.cs.mChunkTable c with
  | none =>
    simp only [hc] at h
    obtain rfl := (Prod.mk.inj (Option.some.inj h)).1
    exact ⟨_, hsame, .inl rfl⟩
  | some cih =>
    simp only [hc] at h
    cases he : env.truncate with
    | some errno =>
      simp only [he] at h
      obtain rfl := (Prod.mk.inj (Option.some.inj h)).1
      exact ⟨_, hsame, .inl rfl⟩
    | none =>
      simp only [he] at h
      cases hk : cih.chunkBlockChecksum with
      | none => simp [hk] at h
      | some checksums =>
        simp only [hk] at h
        split_ifs at h
        obtain rfl := (Prod.mk.inj (Option.some.inj h)).1
        have hold : s.cs.sizes c = some cih.chunkSize := by simp [Cs.sizes, hc]
        refine ⟨some size, ⟨sizes_setEntry, ?_, ?_, rfl⟩, .inr ⟨not_lt.mp hbig, rfl, cih, rfl, rfl⟩⟩
        · simp [hold]
        · simp [hold]

/-! ## Writes -/

/-- What `UpdateChecksums` makes of `mUsedSpace`. -/
def usedAfter (st : Cs) (cih : ChunkInfoHandle) (w : WriteOp) : ℤ :=
  if cih.chunkSize < w.offset + w.numBytesIO then st.mUsedSpace + (w.offset + w.numBytesIO - cih.chunkSize)
  else st.mUsedSpace

/-- The space that `WriteChunk` asks for is there. -/
def hasSpace (st : Cs) (cih : ChunkInfoHandle) (w : WriteOp) : Prop :=
  st.mUsedSpace + (w.offset + WriteOp.numBytesIO (sized w) - cih.chunkSize) < st.mTotalSpace

variable {cih : ChunkInfoHandle} {w w' : WriteOp} {clnt : KfsOp} {res : ℤ}

/-- A write for which there is space makes the chunk at most as large as it may be. -/
theorem usedAfter_bound (h : hasSpace st cih w) (h0 : 0 ≤ st.mUsedSpace) (hle : st.mUsedSpace ≤ st.mTotalSpace) :
    0 ≤ usedAfter st cih (sized w) ∧ usedAfter st cih (sized w) ≤ st.mTotalSpace := by
  unfold hasSpace at h
  have hoff : (sized w).offset = w.offset := rfl
  unfold usedAfter
  split_ifs <;> omega

theorem UpdateChecksums_changed {checksums : ℕ → UInt32}
    (h : UpdateChecksums st cih checksums c w = some st') :
    st'.sizes = Function.update st.sizes c (some (max cih.chunkSize (w.offset + w.numBytesIO))) ∧
      st'.mUsedSpace = usedAfter st cih w ∧ st'.mTotalSpace = st.mTotalSpace := by
  unfold UpdateChecksums at h
  dsimp only at h
  have hused : (if cih.chunkSize < w.offset + w.numBytesIO then
      st.mUsedSpace + (((w.offset + w.numBytesIO : ℕ) : ℤ) - cih.chunkSize)
      else st.mUsedSpace) = usedAfter st cih w := by
    simp [usedAfter]
  rw [hused] at h
  by_cases hok : OffsetToChecksumBlockNum w.offset + w.checksums.length ≤ MAX_CHUNK_CHECKSUM_BLOCKS ∧
      0 ≤ usedAfter st cih w ∧ usedAfter st cih w ≤ st.mTotalSpace
  · rw [if_pos hok] at h
    obtain rfl := Option.some.inj h
    exact ⟨sizes_setEntry, rfl, rfl⟩
  · simp [hok] at h

/-- A write changes nothing here, or what it has to if there is space. -/
def Grown (s : Space) (w : WriteOp) (st' : Cs) : Prop :=
  ∃ v, Changed w.chunkId v s { s with cs := st' } ∧ (st'.mUsedSpace = s.cs.mUsedSpace ∨
    ∃ cih, s.cs.mChunkTable w.chunkId = some cih ∧ hasSpace s.cs cih w ∧
      st'.mUsedSpace = usedAfter s.cs cih (sized w))

theorem Grown.same (hs : st'.sizes = s.cs.sizes) (hu : st'.mUsedSpace = s.cs.mUsedSpace)
    (ht : st'.mTotalSpace = s.cs.mTotalSpace) : Grown s w st' := ⟨_, .same hs hu ht, .inl hu⟩

theorem Grown.updated {checksums : ℕ → UInt32} {st₁ : Cs} (hc : s.cs.mChunkTable w.chunkId = some cih)
    (hhas : hasSpace s.cs cih w) (ho : w'.offset = w.offset) (hn : w'.numBytesIO = WriteOp.numBytesIO (sized w))
    (hs : st₁.sizes = s.cs.sizes) (hu : st₁.mUsedSpace = s.cs.mUsedSpace) (ht : st₁.mTotalSpace = s.cs.mTotalSpace)
    (h : UpdateChecksums st₁ cih checksums w.chunkId w' = some st') : Grown s w st' := by
  obtain ⟨hsizes, hused, htotal⟩ := UpdateChecksums_changed h
  have hold : s.cs.sizes w.chunkId = some cih.chunkSize := by simp [Cs.sizes, hc]
  have hoff : (sized w).offset = w.offset := rfl
  have hafter : usedAfter st₁ cih w' = usedAfter s.cs cih (sized w) := by
    unfold usedAfter
    rw [ho, hn, hu, hoff]
  refine ⟨some (max cih.chunkSize (w.offset + WriteOp.numBytesIO (sized w))), ⟨?_, ?_, ?_, htotal.trans ht⟩,
    .inr ⟨cih, hc, hhas, hused.trans hafter⟩⟩
  · rw [← ho, ← hn]
    exact hs ▸ hsizes
  · dsimp only
    rw [hused, hafter, hold]
    unfold usedAfter
    rw [hoff]
    simp only [Option.getD_some]
    split_ifs <;> omega
  · simp [hold]

theorem WriteChunk_grown (h : WriteChunk env s.cs clnt w = some (st', res)) : Grown s w st' := by
  have hw := h
  unfold WriteChunk at h
  cases hc : s.cs.mChunkTable w.chunkId with
  | none =>
    simp only [hc] at h
    exact (Prod.mk.inj (Option.some.inj h)).1 ▸ .same rfl rfl rfl
  | some cih =>
    simp only [hc] at h
    cases hk : cih.chunkBlockChecksum with
    | none => simp [hk] at h
    | some checksums =>
      simp only [hk] at h
      change (if WriteOp.numBytesIO (sized w) = 0 then _ else _) = _ at h
      split_ifs at h with h0 hspace
      · exact (Prod.mk.inj (Option.some.inj h)).1 ▸ .same rfl rfl rfl
      · exact (Prod.mk.inj (Option.some.inj h)).1 ▸ .same rfl rfl rfl
      have hhas : hasSpace s.cs cih w := not_le.mp hspace
      replace h := (WriteChunk_eq hc hk h0 hspace).symm.trans hw
      cases hi : writeImage cih.chunkSize (sized w) with
      | none => simp [hi] at h
      | some image =>
        cases image with
        | failed =>
          simp only [hi] at h
          exact (Prod.mk.inj (Option.some.inj h)).1 ▸ .same rfl rfl rfl
        | read =>
          simp only [hi] at h
          unfold readBlock at h
          dsimp only at h
          split at h
          · cases h
          · rename_i st₁ res₁ hs
            split_ifs at h
            obtain rfl := (Prod.mk.inj (Option.some.inj h)).1
            rcases scheduleRead_cases hs with ⟨-, rfl⟩ | ⟨-, rfl⟩ | ⟨_, _, _, _, _, -, -, -, rfl, -⟩
            all_goals exact .same rfl rfl rfl
        | ready w' =>
          simp only [hi] at h
          obtain ⟨dataBuf, checksums', rfl⟩ := writeImage_same hi
          unfold scheduleWrite at h
          by_cases hconn : (!env.connect clnt.id) = true
          · rw [if_pos hconn] at h
            exact (Prod.mk.inj (Option.some.inj h)).1 ▸ .same rfl rfl rfl
          rw [if_neg hconn] at h
          split at h
          · exact (Prod.mk.inj (Option.some.inj h)).1 ▸ .same rfl rfl rfl
          · obtain ⟨st₁, hu, he⟩ := Option.map_eq_some_iff.mp h
            refine (Prod.mk.inj he).1 ▸ Grown.updated hc hhas ?_ ?_ ?_ ?_ ?_ hu
            all_goals rfl
          · obtain ⟨st₁, hu, he⟩ := Option.map_eq_some_iff.mp h
            refine (Prod.mk.inj he).1 ▸ Grown.updated hc hhas ?_ ?_ ?_ ?_ ?_ hu
            all_goals rfl

/-! ## Runs -/

/-- There is no chunk `c` yet, and there is space for one of this size. -/
def fitsMapping (s : Space) (c chunkSize : ℕ) : Bool :=
  (s.cs.mChunkTable c).isNone && decide (s.cs.mUsedSpace + chunkSize ≤ s.cs.mTotalSpace)

/-- The files are of different chunks, and there is space for all of them. -/
def fitsFiles : List ChunkFile → Space → Bool
  | [], _ => true
  | f :: files, s => fitsMapping s f.chunkId (s.MakeChunkInfoFromPathname f).chunkSize && fitsFiles files (s.restore f)

/-- What the operations do not check: a truncation of a chunk that goes through leaves it within the space, a chunk that
is entered is new and fits. -/
def Fits (env : Env) (s : Space) : ChunkOp → Bool
  | .TruncateChunk c size => match s.cs.mChunkTable c with
    | none => true
    | some cih => size > CHUNKSIZE || env.truncate.isSome ||
      s.cs.mUsedSpace - cih.chunkSize + size ≤ s.cs.mTotalSpace
  | .AddMapping c cih => fitsMapping s c cih.chunkSize
  | .Restart files => fitsFiles files (Space.empty s.cs.mTotalSpace)
  | _ => true

/-- The counters agree with the table, and the assertions about them hold, that of a removal and, for a write for which
there is space, that of `UpdateChecksums`. -/
structure InSpace (s : Space) : Prop where
  accounted : ∃ chunks, Accounted s chunks
  nonneg : 0 ≤ s.cs.mUsedSpace
  removal : ∀ c, (s.removeChunk c).isSome = true
  update : ∀ cih w, s.cs.mChunkTable w.chunkId = some cih → hasSpace s.cs cih w →
    0 ≤ usedAfter s.cs cih (sized w) ∧ usedAfter s.cs cih (sized w) ≤ s.cs.mTotalSpace

theorem Accounted.inSpace (h : Accounted s chunks) : InSpace s where
  accounted := ⟨chunks, h⟩
  nonneg := h.nonneg
  removal c := by
    obtain ⟨s', hs, -⟩ := removeChunk_changed (c := c) h
    simp [hs]
  update _ _ _ hhas := usedAfter_bound hhas h.nonneg h.bound

theorem restore_accounted : ∀ {files : List ChunkFile} {a : Space} {chunks : Finset ℕ}, Accounted a chunks →
    fitsFiles files a = true → ∃ chunks', Accounted (Space.RestoreV2 files a) chunks'
  | [], _, chunks, h, _ => ⟨chunks, h⟩
  | f :: files, a, chunks, h, hfits => by
    simp only [fitsFiles, fitsMapping, Bool.and_eq_true, Option.isNone_iff_eq_none, decide_eq_true_eq] at hfits
    obtain ⟨⟨hnone, hspace⟩, hrest⟩ := hfits
    obtain ⟨chunks₁, h₁⟩ := (restore_changed hnone).accounted h hspace
    have hall := restore_accounted h₁ hrest
    exact hall

theorem empty_accounted {mTotalSpace : ℤ} (h : 0 ≤ mTotalSpace) : Accounted (Space.empty mTotalSpace) ∅ :=
  ⟨fun c => by simp [Space.empty, Cs.idle, Cs.sizes], rfl, rfl, h⟩

/-- The space that is used does not grow. -/
theorem Changed.keep (h : Changed c v s s') (ha : Accounted s chunks) (hle : s'.cs.mUsedSpace ≤ s.cs.mUsedSpace) :
    ∃ chunks', Accounted s' chunks' :=
  h.accounted ha (h.total ▸ hle.trans ha.bound)

theorem Changed.still (h : Changed c (s.cs.sizes c) s s') (ha : Accounted s chunks) : ∃ chunks', Accounted s' chunks' :=
  h.keep ha (by have hu := h.used; omega)

theorem step_accounted {op : ChunkOp} (h : ∃ chunks, Accounted s chunks) (hfits : Fits env s op = true)
    (hstep : s.step env op = some s') : ∃ chunks, Accounted s' chunks := by
  obtain ⟨chunks, h⟩ := h
  cases op with
  | AllocChunk c n =>
    obtain rfl := Option.some.inj hstep
    obtain ⟨v, hch, hused⟩ := @AllocChunk_changed s c env n
    exact hch.keep h hused.le
  | DeleteChunk c =>
    obtain ⟨s₁, hs, hch⟩ := removeChunk_changed (c := c) h
    obtain rfl := Option.some.inj (hs.symm.trans hstep)
    have hu := hch.used
    rw [Option.getD_none] at hu
    exact hch.keep h (by omega)
  | StaleChunk c =>
    obtain ⟨s₁, hs, hch⟩ := removeChunk_changed (c := c) h
    obtain rfl := Option.some.inj (hs.symm.trans hstep)
    have hu := hch.used
    rw [Option.getD_none] at hu
    exact hch.keep h (by omega)
  | TruncateChunk c size =>
    obtain ⟨r, hr, rfl⟩ := Option.map_eq_some_iff.mp hstep
    obtain ⟨v, hch, hsame | ⟨hsize, htrunc, cih, hc, hused⟩⟩ := @TruncateChunk_changed s c env r.1 size r.2 hr
    · exact hch.keep h (by dsimp only; rw [hsame])
    · refine hch.accounted h ?_
      rw [hch.total]
      simp only [Fits, hc, htrunc, Option.isSome_none, Bool.or_false, Bool.or_eq_true, decide_eq_true_eq] at hfits
      dsimp only
      rw [hused]
      exact hfits.resolve_left (not_lt.mpr hsize)
  | WriteChunk clnt w =>
    obtain ⟨r, hr, rfl⟩ := Option.map_eq_some_iff.mp hstep
    obtain ⟨v, hch, hsame | ⟨cih, hc, hhas, hused⟩⟩ := @WriteChunk_grown s env r.1 w clnt r.2 hr
    · exact hch.keep h hsame.le
    · refine hch.accounted h ?_
      rw [hch.total]
      dsimp only
      rw [hused]
      exact (usedAfter_bound hhas h.nonneg h.bound).2
  | AddMapping c cih =>
    obtain rfl := Option.some.inj hstep
    simp only [Fits, fitsMapping, Bool.and_eq_true, Option.isNone_iff_eq_none, decide_eq_true_eq] at hfits
    exact (AddMapping_changed hfits.1).accounted h hfits.2
  | Restart files =>
    obtain rfl := Option.some.inj hstep
    exact restore_accounted (empty_accounted (h.nonneg.trans h.bound)) hfits
  | ChangeChunkVers c n =>
    obtain rfl := Option.some.inj hstep
    exact ChangeChunkVers_changed.still h
  | SetChunkMetadata c checksums =>
    obtain rfl := Option.some.inj hstep
    exact SetChunkMetadata_changed.still h
  | CloseChunk c =>
    obtain rfl := Option.some.inj hstep
    exact releaseChunk_changed.still h

/-- **The counters agree with the table in every state**, and their assertions hold. -/
theorem run_accounted {mTotalSpace : ℤ} {ops : List (Env × ChunkOp)} (h0 : 0 ≤ mTotalSpace)
    (h : Space.run Fits ops (Space.empty mTotalSpace) = some s) : InSpace s := by
  suffices hrun : ∀ {ops : List (Env × ChunkOp)} {a b : Space}, (∃ chunks, Accounted a chunks) →
      Space.run Fits ops a = some b → ∃ chunks, Accounted b chunks by
    obtain ⟨chunks, ha⟩ := hrun ⟨∅, empty_accounted h0⟩ h
    exact ha.inSpace
  intro ops
  induction ops with
  | nil => exact fun ha h => Option.some.inj h ▸ ha
  | cons x ops ih =>
    intro a b ha h
    rw [Space.run] at h
    split_ifs at h with hfits
    cases hs : a.step x.1 x.2 with
    | none => simp [hs] at h
    | some a' =>
      rw [hs] at h
      exact ih (step_accounted ha hfits hs) h

/-- A restart finds a chunk of 3616 bytes; another one is created and the first one is cut to half its size. -/
theorem run_accounted_restart : ∃ s, Space.run Fits [(Env.fine, .Restart [⟨7, 1, 20000, ⟨fun _ => 0, 3616⟩⟩]),
      (Env.fine, .AllocChunk 8 1), (Env.fine, .SetChunkMetadata 7 fun _ => 0), (Env.fine, .TruncateChunk 7 1808)]
      (Space.empty 4000) = some s ∧ InSpace s ∧ s.cs.mUsedSpace = 1808 := by
  have hrun : (Space.run Fits [(Env.fine, .Restart [⟨7, 1, 20000, ⟨fun _ => 0, 3616⟩⟩]), (Env.fine, .AllocChunk 8 1),
      (Env.fine, .SetChunkMetadata 7 fun _ => 0), (Env.fine, .TruncateChunk 7 1808)] (Space.empty 4000)).map
        (fun s => s.cs.mUsedSpace) = some 1808 := by decide +kernel
  obtain ⟨s, h, hu⟩ := Option.map_eq_some_iff.mp hrun
  exact ⟨s, h, run_accounted (by decide) h, hu⟩

/-- A chunk is truncated to more than there is space for; and a restart finds two files of one chunk. -/
theorem not_accounted :
    (∃ s, Space.run (fun _ _ _ => true) [(Env.fine, .AllocChunk 7 1), (Env.fine, .TruncateChunk 7 2000)]
      (Space.empty 1000) = some s ∧ ¬ InSpace s) ∧
    ∃ s, Space.run (fun _ _ _ => true)
      [(Env.fine, .Restart [⟨7, 1, 16394, ⟨fun _ => 0, 10⟩⟩, ⟨7, 2, 16394, ⟨fun _ => 0, 10⟩⟩])]
      (Space.empty 1000) = some s ∧ ¬ InSpace s := by
  constructor
  · have hrun : (Space.run (fun _ _ _ => true) [(Env.fine, .AllocChunk 7 1), (Env.fine, .TruncateChunk 7 2000)]
        (Space.empty 1000)).map (fun s => (s.cs.mUsedSpace, s.cs.mTotalSpace)) = some (2000, 1000) := by decide +kernel
    obtain ⟨s, h, he⟩ := Option.map_eq_some_iff.mp hrun
    refine ⟨s, h, fun hin => ?_⟩
    obtain ⟨chunks, ha⟩ := hin.accounted
    have hb := ha.bound
    rw [(Prod.mk.inj he).1, (Prod.mk.inj he).2] at hb
    exact absurd hb (by decide)
  · refine ⟨_, rfl, fun hin => ?_⟩
    obtain ⟨chunks, ha⟩ := hin.accounted
    have hsub : chunks ⊆ {7} := fun c hc => by
      have hs := (ha.table c).mpr hc
      by_contra hne
      rw [Finset.mem_singleton] at hne
      simp [Cs.sizes, Space.RestoreV2, Space.restore, Space.AddMapping, setEntry, Space.empty, Cs.idle, hne] at hs
    have hcard := ha.num
    have hle := Finset.card_le_card hsub
    rw [Finset.card_singleton] at hle
    change (2 : ℤ) = chunks.card at hcard
    omega

end Kfs.Chunk
