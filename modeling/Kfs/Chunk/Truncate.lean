import Kfs.Chunk.Space

/-!
# Truncating a chunk

The data of a chunk lies behind a header in its file. `TruncateChunk` cuts the file to the size that the chunk is to
have, as if there were no header.

* `BackingFile`: the file of a chunk as the file system has it, `File` is what is behind its header (`behind`);
* `truncateFiles`, `TruncateChunk_backs`: what `TruncateChunk` does to the files;
* `kept_iff`, `restart_size`: what is left of the data, and which size a restart finds;
* **`TruncateChunk_never`**: the chunk never has the file that it should have.
-/

namespace Kfs.Chunk

open ChunkManager

/-- The file of a chunk, header and all. Behind its end there is nothing. -/
structure BackingFile where
  size : ℕ
  byte : ℕ → UInt8
  beyond : ∀ i, size ≤ i → byte i = 0

namespace BackingFile

/-- What is cut off is gone, what is added are zeros. -/
def truncate (b : BackingFile) (n : ℕ) : BackingFile where
  size := n
  byte i := if i < n then b.byte i else 0
  beyond _ h := if_neg (not_lt.mpr h)

/-- `WriteChunkMetadata`: the header is written to the start of the file. -/
def writeMeta (b : BackingFile) (header : List UInt8) : BackingFile where
  size := max b.size header.length
  byte i := if i < header.length then header.getD i 0 else b.byte i
  beyond i h := by
    rw [if_neg (by omega)]
    exact b.beyond i (by omega)

/-- The data of the chunk. -/
def behind (b : BackingFile) : File where
  data i := b.byte (i + KFS_CHUNK_HEADER_SIZE)
  length := b.size - KFS_CHUNK_HEADER_SIZE

theorem behind_truncate (b : BackingFile) (n : ℕ) : (b.truncate n).behind = b.behind.truncate n := rfl

end BackingFile

/-- The chunk server sees the data in its files. -/
def Backs (files : ℕ → BackingFile) (st : Cs) : Prop := ∀ f, st.files f = (files f).behind

/-- The files when `TruncateChunk` has returned. -/
def truncateFiles (env : Env) (st : Cs) (files : ℕ → BackingFile) (chunkId chunkSize : ℕ) : ℕ → BackingFile :=
  if chunkSize > CHUNKSIZE then files
  else match st.mChunkTable chunkId with
    | none => files
    | some cih =>
      match env.truncate with
      | some _ => files
      | none => Function.update files cih.file ((files cih.file).truncate chunkSize)

/-- What a truncation of the chunk to `s` bytes has to leave: the data in front of the new end, a file of that size
behind the header, a table with checksums that fail for nothing, and the same size after a restart, which finds the
file with its header written again. -/
structure Truncated (st st' : Cs) (files files' : ℕ → BackingFile) (c s : ℕ) : Prop where
  data : ∀ cih, st.mChunkTable c = some cih → ∀ i < min s cih.chunkSize,
    (files' cih.file).behind.data i = (files cih.file).behind.data i
  size : ∀ cih, st.mChunkTable c = some cih → (files' cih.file).size = KFS_CHUNK_HEADER_SIZE + s
  entry : ∃ cih checksums, st'.mChunkTable c = some cih ∧ cih.chunkSize = s ∧
    cih.chunkBlockChecksum = some checksums ∧
    ∀ k, ¬ Differs ⟨cih.chunkVersion, s, checksums⟩ (diskBytes (files' cih.file).behind.data 0 s) 0 k
  restart : ∀ cih, st.mChunkTable c = some cih → ∀ header : List UInt8, header.length ≤ KFS_CHUNK_HEADER_SIZE →
    ∀ space data, (Space.MakeChunkInfoFromPathname space
      ⟨c, cih.chunkVersion, ((files' cih.file).writeMeta header).size, data⟩).chunkSize = s

variable {env : Env} {st st' : Cs} {files : ℕ → BackingFile} {c s : ℕ} {res : ℤ} {cih : ChunkInfoHandle}
  {checksums : ℕ → UInt32}

/-- The files go along with the state. -/
theorem TruncateChunk_backs (hb : Backs files st) (h : TruncateChunk env st c s = some (st', res)) :
    Backs (truncateFiles env st files c s) st' := by
  unfold TruncateChunk at h
  unfold truncateFiles
  split_ifs at h ⊢ with hbig
  · obtain ⟨rfl, -⟩ := Prod.mk.inj (Option.some.inj h)
    exact hb
  cases hc : st.mChunkTable c with
  | none =>
    simp only [hc, Option.some.injEq, Prod.mk.injEq] at h
    obtain ⟨rfl, -⟩ := h
    exact hb
  | some cih =>
    simp only [hc] at h ⊢
    cases ht : env.truncate with
    | some errno =>
      simp only [ht, Option.some.injEq, Prod.mk.injEq] at h
      obtain ⟨rfl, -⟩ := h
      exact hb
    | none =>
      simp only [ht] at h ⊢
      split at h
      · cases h
      · split_ifs at h
        obtain ⟨rfl, -⟩ := Prod.mk.inj (Option.some.inj h)
        intro f
        simp only [Function.update_apply]
        split_ifs
        · rw [BackingFile.behind_truncate, hb]
        · exact hb f

/-- The file that a successful truncation leaves. -/
theorem truncateFiles_eq (hs : s ≤ CHUNKSIZE) (hc : st.mChunkTable c = some cih) (ht : env.truncate = none) :
    truncateFiles env st files c s cih.file = (files cih.file).truncate s := by
  simp [truncateFiles, not_lt.mpr hs, hc, ht]

/-- Below the largest size a truncation succeeds, and of the checksums it forgets that of the block of the new end. -/
theorem TruncateChunk_eq (hs : s < CHUNKSIZE) (hc : st.mChunkTable c = some cih)
    (hck : cih.chunkBlockChecksum = some checksums) (ht : env.truncate = none) :
    ∃ st', TruncateChunk env st c s = some (st', 0) ∧ st'.mChunkTable c = some { cih with
      chunkSize := s
      chunkBlockChecksum := some (Function.update checksums (OffsetToChecksumBlockNum s) 0) } := by
  have hblock : ¬ OffsetToChecksumBlockNum s ≥ MAX_CHUNK_CHECKSUM_BLOCKS := by
    simp only [OffsetToChecksumBlockNum, CHECKSUM_BLOCKSIZE, MAX_CHUNK_CHECKSUM_BLOCKS, CHUNKSIZE] at *
    omega
  unfold TruncateChunk
  simp only [not_lt.mpr hs.le, hc, ht, hck, if_neg hblock, if_false]
  exact ⟨_, rfl, by simp [setEntry]⟩

/-- At the largest size it writes behind the array of the checksums. -/
theorem TruncateChunk_full (hc : st.mChunkTable c = some cih) (ht : env.truncate = none) :
    TruncateChunk env st c CHUNKSIZE = none := by
  have hblock : OffsetToChecksumBlockNum CHUNKSIZE ≥ MAX_CHUNK_CHECKSUM_BLOCKS := by decide
  unfold TruncateChunk
  simp only [hc, ht, if_pos hblock, gt_iff_lt, lt_irrefl, if_false]
  cases cih.chunkBlockChecksum with
  | none => rfl
  | some _ => rfl

/-- The data in front of the new end is kept exactly when the last bytes of it, as many as the header has, are zeros. -/
theorem kept_iff {b : BackingFile} {old : ℕ} :
    (∀ i < min s old, (b.truncate s).behind.data i = b.behind.data i) ↔
      ∀ i < min s old, s ≤ i + KFS_CHUNK_HEADER_SIZE → b.behind.data i = 0 := by
  have hcut : ∀ i, (b.truncate s).behind.data i =
      if i + KFS_CHUNK_HEADER_SIZE < s then b.behind.data i else 0 := fun _ => rfl
  constructor
  · intro h i hi hend
    rw [← h i hi, hcut, if_neg (not_lt.mpr hend)]
  · intro h i hi
    rw [hcut]
    split_ifs with hlt
    · rfl
    · exact (h i hi (not_lt.mp hlt)).symm

/-- A restart finds a chunk that is shorter by the header. -/
theorem restart_size {b : BackingFile} {header : List UInt8} (hh : header.length ≤ KFS_CHUNK_HEADER_SIZE)
    {space : Space} {v : ℤ} {data : File} :
    (Space.MakeChunkInfoFromPathname space ⟨c, v, ((b.truncate s).writeMeta header).size, data⟩).chunkSize =
      s - KFS_CHUNK_HEADER_SIZE := by
  change (if max s header.length ≥ KFS_CHUNK_HEADER_SIZE then max s header.length - KFS_CHUNK_HEADER_SIZE else 0) =
    s - KFS_CHUNK_HEADER_SIZE
  by_cases h : max s header.length ≥ KFS_CHUNK_HEADER_SIZE
  · rw [if_pos h]
    omega
  · rw [if_neg h]
    omega

/-- **No truncation leaves the file that the chunk should have.** At the largest size the checksum that is forgotten is
not in the array, and at every other one the file lacks as many bytes as the header has. -/
theorem TruncateChunk_never (env : Env) (st : Cs) (files : ℕ → BackingFile) (c : ℕ) {s : ℕ} {cih : ChunkInfoHandle}
    (hs : s ≤ CHUNKSIZE) (hc : st.mChunkTable c = some cih) (ht : env.truncate = none) :
    ¬ ∃ st', TruncateChunk env st c s = some (st', 0) ∧
      Truncated st st' files (truncateFiles env st files c s) c s := by
  rintro ⟨st', h, htr⟩
  have hsize := htr.size cih hc
  rw [truncateFiles_eq hs hc ht] at hsize
  change s = KFS_CHUNK_HEADER_SIZE + s at hsize
  rw [KFS_CHUNK_HEADER_SIZE] at hsize
  omega

/-- A chunk server with a chunk of five zeros and its file. -/
def fiveZeros : Cs := setEntry (Cs.idle 100000) 7 (some ⟨1, 5, some fun _ => 0, none, 0⟩)

def fiveZerosFile : BackingFile := ⟨KFS_CHUNK_HEADER_SIZE + 5, fun _ => 0, fun _ _ => rfl⟩

theorem fiveZeros_entry : fiveZeros.mChunkTable 7 = some ⟨1, 5, some fun _ => 0, none, 0⟩ := by
  simp [fiveZeros, setEntry]

theorem TruncateChunk_never_fiveZeros : ¬ ∃ st', TruncateChunk Env.fine fiveZeros 7 3 = some (st', 0) ∧
    Truncated fiveZeros st' (fun _ => fiveZerosFile) (truncateFiles Env.fine fiveZeros (fun _ => fiveZerosFile) 7 3)
      7 3 :=
  TruncateChunk_never Env.fine fiveZeros (fun _ => fiveZerosFile) 7 (by decide) fiveZeros_entry rfl

/-- Cut to three bytes, the chunk has a file of three bytes, and with its header written again a restart finds it
empty. -/
theorem TruncateChunk_fiveZeros : ∃ st', TruncateChunk Env.fine fiveZeros 7 3 = some (st', 0) ∧
    (st'.mChunkTable 7).map ChunkInfoHandle.chunkSize = some 3 ∧
    (truncateFiles Env.fine fiveZeros (fun _ => fiveZerosFile) 7 3 0).size = 3 ∧
    ¬ Truncated fiveZeros st' (fun _ => fiveZerosFile)
      (truncateFiles Env.fine fiveZeros (fun _ => fiveZerosFile) 7 3) 7 3 := by
  obtain ⟨st', h, hentry⟩ := @TruncateChunk_eq Env.fine fiveZeros 7 3 _ _ (by decide) fiveZeros_entry rfl rfl
  have hfile := @truncateFiles_eq Env.fine fiveZeros (fun _ => fiveZerosFile) 7 3 _ (by decide) fiveZeros_entry rfl
  refine ⟨st', h, by rw [hentry]; rfl, by rw [hfile]; rfl, fun htr => ?_⟩
  have hrestart := htr.restart _ fiveZeros_entry [] (Nat.zero_le _) (Space.empty 0) ⟨fun _ => 0, 0⟩
  rw [hfile, restart_size (Nat.zero_le _)] at hrestart
  exact absurd hrestart (by decide)

end Kfs.Chunk
