import Kfs.Chunk.Checksum

/-!
# Reading a chunk

`ReadChunk` schedules a read of whole checksum blocks, `ReadChunkDone` checks what was read against the stored
checksums and cuts off what was not asked for. The scan over the stored checksums starts at the byte offset of
the first block, where it should start at its number.

* `ChunkInfo`, `ReadOp`, `ReadChunk`, `ReadChunkDone`;
* `Verified`: what the checks are for;
* **`verified_iff`**: a read is verified, whatever is on disk, exactly when it starts in the first block.
-/

namespace Kfs.Chunk

def EIO : ℤ := 5
def EBADVERS : ℤ := 1000
def EBADCKSUM : ℤ := 1002

/-- What the chunk server keeps about a chunk while its checksums are loaded. -/
structure ChunkInfo where
  chunkVersion : ℤ
  chunkSize : ℕ
  chunkBlockChecksum : ℕ → UInt32

structure ReadOp where
  chunkVersion : ℤ
  offset : ℕ
  numBytes : ℕ
  numBytesIO : ℕ
  status : ℤ
  dataBuf : IOBuffer

/-- Schedule a read: the status on failure, else the place and the length of the read, which is in terms of
checksum blocks but does not go past the end of the chunk, and the operation with status 0. -/
def ReadChunk (ci : ChunkInfo) (op : ReadOp) : Except ℤ (ℕ × ℕ × ReadOp) :=
  if op.chunkVersion ≠ ci.chunkVersion then .error (-EBADVERS)
  else
    let numBytesIO :=
      if op.offset ≥ ci.chunkSize then 0
      else if op.offset + op.numBytes > ci.chunkSize then ci.chunkSize - op.offset
      else op.numBytes
    let op := { op with numBytesIO := numBytesIO, status := 0 }
    if numBytesIO = 0 then .error (- EIO)
    else
      let offset := OffsetToChecksumBlockStart op.offset
      let n := numBytesIO / CHECKSUM_BLOCKSIZE * CHECKSUM_BLOCKSIZE
      let n := if numBytesIO % CHECKSUM_BLOCKSIZE ≠ 0 then n + CHECKSUM_BLOCKSIZE else n
      let n := if offset + n > ci.chunkSize then ci.chunkSize - offset else n
      .ok (offset, n, op)

/-- Fill the last block with zeros. -/
def ZeroPad (buffer : IOBuffer) : IOBuffer :=
  let bytesFilled := buffer.flatten.length
  if bytesFilled % CHECKSUM_BLOCKSIZE = 0 then buffer
  else buffer ++ [List.replicate (CHECKSUM_BLOCKSIZE - bytesFilled % CHECKSUM_BLOCKSIZE) 0]

/-- Cut off what was read in front of and behind the data that was asked for. -/
def AdjustDataRead (op : ReadOp) : ReadOp :=
  let extraRead := op.offset - OffsetToChecksumBlockStart op.offset
  { op with dataBuf := [(op.dataBuf.flatten.drop extraRead).take op.numBytesIO] }

/-- The loop of `ReadChunkDone`: whether a checksum does not match. -/
def mismatch (stored : ℕ → UInt32) : ℕ → List UInt32 → Bool
  | _, [] => false
  | checksumBlock, c :: checksums =>
    if checksumBlock < MAX_CHUNK_CHECKSUM_BLOCKS then
      if stored checksumBlock = 0 ∨ c = stored checksumBlock then mismatch stored (checksumBlock + 1) checksums
      else true
    else false

/-- The end of a read, with `none` when an assertion fails; `cih` is the chunk if it is still there. -/
def ReadChunkDone [Zlib] (cih : Option ChunkInfo) (op : ReadOp) : Option ReadOp :=
  match cih with
  | none => some { AdjustDataRead op with status := -EBADVERS }
  | some ci =>
    if op.chunkVersion ≠ ci.chunkVersion then some { AdjustDataRead op with status := -EBADVERS }
    else
      let op := { op with dataBuf := ZeroPad op.dataBuf }
      -- the number of bytes is asserted here and in `ComputeChecksums`
      match ComputeChecksums op.dataBuf op.dataBuf.flatten.length with
      | none => none
      | some checksums =>
        if mismatch ci.chunkBlockChecksum (OffsetToChecksumBlockStart op.offset) checksums then
          some { op with status := -EBADCKSUM }
        else some (AdjustDataRead op)

/-- The bytes on disk from `offset` on. -/
def diskBytes (disk : ℕ → UInt8) (offset n : ℕ) : List UInt8 := (List.range n).map fun i => disk (offset + i)

/-- The bytes of block `k` among those that a read from block `first` on has returned, filled with zeros. -/
def paddedBlock (read : List UInt8) (first k : ℕ) : List UInt8 :=
  let b := (read.drop ((k - first) * CHECKSUM_BLOCKSIZE)).take CHECKSUM_BLOCKSIZE
  b ++ List.replicate (CHECKSUM_BLOCKSIZE - b.length) 0

/-- Block `k` differs from its stored checksum. -/
def Differs [Zlib] (ci : ChunkInfo) (read : List UInt8) (first k : ℕ) : Prop :=
  ci.chunkBlockChecksum k ≠ 0 ∧ ci.chunkBlockChecksum k ≠ ComputeBlockChecksum (paddedBlock read first k)

/-- What the end `op'` of a read that got the bytes `read` has to say about them: data is returned only from
blocks that do not differ from their checksums, and a block that differs makes the read fail. -/
structure Verified [Zlib] (ci : ChunkInfo) (op op' : ReadOp) (read : List UInt8) : Prop where
  sound : 0 ≤ op'.status → ∀ j < op'.dataBuf.flatten.length,
    ¬ Differs ci read (OffsetToChecksumBlockNum op.offset) (OffsetToChecksumBlockNum (op.offset + j))
  complete : ∀ j < read.length, Differs ci read (OffsetToChecksumBlockNum op.offset)
      (OffsetToChecksumBlockNum (OffsetToChecksumBlockStart op.offset + j)) → op'.status = -EBADCKSUM

/-! ## Blocks -/

variable {l : List UInt8} {i : ℕ}

theorem ZeroPad_flatten (b : IOBuffer) : (ZeroPad b).flatten = b.flatten ++
    List.replicate ((CHECKSUM_BLOCKSIZE - b.flatten.length % CHECKSUM_BLOCKSIZE) % CHECKSUM_BLOCKSIZE) 0 := by
  unfold ZeroPad
  dsimp only
  split_ifs with h
  · rw [h, Nat.sub_zero, Nat.mod_self, List.replicate_zero, List.append_nil]
  · have hpos : 0 < CHECKSUM_BLOCKSIZE := by decide
    rw [Nat.mod_eq_of_lt (a := CHECKSUM_BLOCKSIZE - _) (by omega)]
    simp

/-- A block of the padded data is the padded block. -/
theorem padded_take {first : ℕ} (h : i * CHECKSUM_BLOCKSIZE < l.length) :
    ((l ++ List.replicate ((CHECKSUM_BLOCKSIZE - l.length % CHECKSUM_BLOCKSIZE) % CHECKSUM_BLOCKSIZE) 0).drop
      (i * CHECKSUM_BLOCKSIZE)).take CHECKSUM_BLOCKSIZE = paddedBlock l first (first + i) := by
  have hpos : 0 < CHECKSUM_BLOCKSIZE := by decide
  unfold paddedBlock
  rw [Nat.add_sub_cancel_left, List.drop_append_of_le_length h.le, List.take_append]
  congr 1
  rw [List.take_replicate, List.length_take, List.length_drop]
  congr 1
  by_cases hfull : CHECKSUM_BLOCKSIZE ≤ l.length - i * CHECKSUM_BLOCKSIZE
  · omega
  · -- the last block
    have hmod : l.length % CHECKSUM_BLOCKSIZE = l.length - i * CHECKSUM_BLOCKSIZE := by
      have hdiv : l.length / CHECKSUM_BLOCKSIZE = i := by
        rw [Nat.div_eq_iff hpos]
        omega
      have := Nat.mod_add_div l.length CHECKSUM_BLOCKSIZE
      rw [hdiv, mul_comm] at this
      omega
    rw [hmod, Nat.mod_eq_of_lt (by omega)]
    omega

theorem mismatch_iff {stored : ℕ → UInt32} : ∀ {cs : List UInt32} {k : ℕ}, mismatch stored k cs = true ↔
    ∃ i c, cs[i]? = some c ∧ k + i < MAX_CHUNK_CHECKSUM_BLOCKS ∧ stored (k + i) ≠ 0 ∧ c ≠ stored (k + i)
  | [], k => by simp [mismatch]
  | c :: cs, k => by
    have hshift : ∀ i, k + 1 + i = k + (i + 1) := fun i => by omega
    rw [mismatch]
    by_cases hk : k < MAX_CHUNK_CHECKSUM_BLOCKS
    · rw [if_pos hk]
      by_cases hc : stored k = 0 ∨ c = stored k
      · rw [if_pos hc, mismatch_iff]
        constructor
        · rintro ⟨i, d, hd, h⟩
          rw [hshift] at h
          exact ⟨i + 1, d, hd, h⟩
        · rintro ⟨i, d, hd, h⟩
          cases i with
          | zero =>
            obtain rfl : c = d := by simpa using hd
            exact absurd hc (by simpa using h.2)
          | succ i =>
            refine ⟨i, d, hd, ?_⟩
            rw [hshift]
            exact h
      · rw [if_neg hc]
        exact iff_of_true rfl ⟨0, c, rfl, hk, by simpa using hc⟩
    · rw [if_neg hk]
      refine iff_of_false Bool.false_ne_true ?_
      rintro ⟨i, d, -, hlt, -⟩
      omega

/-! ## Reads -/

variable {ci : ChunkInfo} {op op₁ : ReadOp} {offset n : ℕ}

/-- What `ReadChunk` schedules. -/
theorem ReadChunk_spec (h : ReadChunk ci op = .ok (offset, n, op₁)) :
    op.chunkVersion = ci.chunkVersion ∧ op.offset < ci.chunkSize ∧
      offset = OffsetToChecksumBlockStart op.offset ∧ 0 < n ∧ offset + n ≤ ci.chunkSize ∧
      ∃ m, op₁ = { op with numBytesIO := m, status := 0 } := by
  unfold ReadChunk at h
  by_cases hv : op.chunkVersion ≠ ci.chunkVersion
  · simp [hv] at h
  rw [if_neg hv] at h
  dsimp only at h
  by_cases ho : op.offset ≥ ci.chunkSize
  · simp [ho] at h
  rw [if_neg ho] at h
  generalize hm : (if op.offset + op.numBytes > ci.chunkSize then ci.chunkSize - op.offset else op.numBytes) = m at h
  split_ifs at h <;> simp only [Except.ok.injEq, Prod.mk.injEq] at h
  all_goals
    obtain ⟨rfl, rfl, rfl⟩ := h
    refine ⟨not_not.mp hv, by omega, rfl, ?_, ?_, m, rfl⟩
    all_goals
      simp only [OffsetToChecksumBlockStart, CHECKSUM_BLOCKSIZE] at *
      omega

theorem length_diskBytes {disk : ℕ → UInt8} : (diskBytes disk offset n).length = n := by
  simp [diskBytes]

theorem diskBytes_zeros : diskBytes (fun _ => 0) offset n = List.replicate n 0 := by
  rw [List.eq_replicate_iff]
  exact ⟨length_diskBytes, fun b hb => by
    obtain ⟨i, -, rfl⟩ := List.mem_map.mp hb
    rfl⟩

/-- Behind the first block nothing is compared. -/
theorem mismatch_late {stored : ℕ → UInt32} {checksums : List UInt32} (h : CHECKSUM_BLOCKSIZE ≤ op.offset) :
    mismatch stored (OffsetToChecksumBlockStart op.offset) checksums = false := by
  rw [Bool.eq_false_iff, ne_eq, mismatch_iff]
  rintro ⟨i, c, -, hlt, -⟩
  simp only [OffsetToChecksumBlockStart, CHECKSUM_BLOCKSIZE, MAX_CHUNK_CHECKSUM_BLOCKS] at h hlt
  omega

section

variable {buf : IOBuffer} [Zlib]

/-- The scan of `ReadChunkDone` finds the first blocks that were read and differ, from the number on that is the
byte offset of the read. -/
theorem ReadChunkDone_spec (hv : op₁.chunkVersion = ci.chunkVersion) (hb : buf.flatten ≠ []) :
    ∃ checksums : List UInt32, (∀ i c, checksums[i]? = some c ↔ i * CHECKSUM_BLOCKSIZE < buf.flatten.length ∧
        ∀ first, c = ComputeBlockChecksum (paddedBlock buf.flatten first (first + i))) ∧
      ReadChunkDone (some ci) { op₁ with dataBuf := buf } =
        if mismatch ci.chunkBlockChecksum (OffsetToChecksumBlockStart op₁.offset) checksums then
          some { op₁ with dataBuf := ZeroPad buf, status := -EBADCKSUM }
        else some (AdjustDataRead { op₁ with dataBuf := ZeroPad buf }) := by
  have hpos : 0 < buf.flatten.length := List.length_pos_iff.mpr hb
  have hlen : (ZeroPad buf).flatten.length % CHECKSUM_BLOCKSIZE = 0 ∧
      buf.flatten.length ≤ (ZeroPad buf).flatten.length ∧
      (ZeroPad buf).flatten.length < buf.flatten.length + CHECKSUM_BLOCKSIZE := by
    rw [ZeroPad_flatten, List.length_append, List.length_replicate]
    simp only [CHECKSUM_BLOCKSIZE]
    omega
  have hone : CHECKSUM_BLOCKSIZE ≤ (ZeroPad buf).flatten.length := by
    simp only [CHECKSUM_BLOCKSIZE] at hlen ⊢
    omega
  refine ⟨(blocks (ZeroPad buf).flatten).map ComputeBlockChecksum, fun i c => ?_, ?_⟩
  · have hiff : i * CHECKSUM_BLOCKSIZE < (ZeroPad buf).flatten.length ↔
        i * CHECKSUM_BLOCKSIZE < buf.flatten.length := by
      simp only [CHECKSUM_BLOCKSIZE] at hlen ⊢
      omega
    rw [List.getElem?_map, blocks_getElem?]
    by_cases hi : i * CHECKSUM_BLOCKSIZE < buf.flatten.length
    · rw [if_pos (hiff.mpr hi), ZeroPad_flatten, Option.map_some, Option.some.injEq]
      refine ⟨fun h => ⟨hi, fun first => ?_⟩, fun h => ?_⟩
      · rw [← h, padded_take hi]
      · rw [h.2 0, padded_take hi]
    · rw [if_neg (fun h => hi (hiff.mp h))]
      exact iff_of_false (by simp) fun h => hi h.1
  · simp only [ReadChunkDone, hv, ne_eq, not_true_eq_false, if_false, ComputeChecksums_eq hone]

/-- The low half of the checksum of zeros is 1. -/
theorem checksum_zeros (n : ℕ) : (ComputeBlockChecksum (List.replicate n 0)).toNat % 65536 = 1 :=
  adler32_zeros 1 n (by decide)

/-- The checksum 7 is not that of a block of zeros. -/
theorem differs_zeros {v : ℤ} {size first k : ℕ} : Differs ⟨v, size, fun _ => 7⟩ (List.replicate n 0) first k := by
  have hzero : paddedBlock (List.replicate n 0) first k = List.replicate CHECKSUM_BLOCKSIZE 0 := by
    unfold paddedBlock
    dsimp only
    rw [List.drop_replicate, List.take_replicate, List.length_replicate, List.replicate_append_replicate]
    congr 1
    omega
  refine ⟨show (7 : UInt32) ≠ 0 by decide, fun h => ?_⟩
  have hone := checksum_zeros CHECKSUM_BLOCKSIZE
  rw [← hzero, ← h] at hone
  exact absurd hone (show ¬ (7 : UInt32).toNat % 65536 = 1 by decide)

/-- A read that starts behind the first block is not verified when the stored checksum is wrong. -/
theorem late_not_verified (h : CHECKSUM_BLOCKSIZE ≤ op₁.offset) (hst : op₁.status = 0)
    (hb : buf.flatten = List.replicate n 0)
    (hn : 0 < n) {size : ℕ} : ¬ ∃ op₂, ReadChunkDone (some ⟨op₁.chunkVersion, size, fun _ => 7⟩)
      { op₁ with dataBuf := buf } = some op₂ ∧ Verified ⟨op₁.chunkVersion, size, fun _ => 7⟩ op₁ op₂ buf.flatten := by
  rintro ⟨op₂, hd, hver⟩
  have hne : buf.flatten ≠ [] := by
    rw [hb]
    exact List.ne_nil_of_length_pos (by simpa using hn)
  obtain ⟨checksums, -, he⟩ :=
    @ReadChunkDone_spec ⟨op₁.chunkVersion, size, fun _ => 7⟩ op₁ buf _ rfl hne
  rw [mismatch_late h, if_neg Bool.false_ne_true, hd] at he
  have hbad := hver.complete 0 (List.length_pos_iff.mpr hne) (by rw [hb]; exact differs_zeros)
  obtain rfl := Option.some.inj he
  change op₁.status = -EBADCKSUM at hbad
  rw [hst] at hbad
  exact absurd hbad (by decide)

/-- A read that starts in the first block is verified. -/
theorem first_verified (hsize : ci.chunkSize ≤ CHUNKSIZE) (h : ReadChunk ci op = .ok (offset, n, op₁))
    (hb : buf.flatten.length = n) (ho : op.offset < CHECKSUM_BLOCKSIZE) :
    ∃ op₂, ReadChunkDone (some ci) { op₁ with dataBuf := buf } = some op₂ ∧ Verified ci op₁ op₂ buf.flatten := by
  obtain ⟨hv, -, hoff, hn, hle, m, rfl⟩ := ReadChunk_spec h
  have hne : buf.flatten ≠ [] := List.ne_nil_of_length_pos (by omega)
  obtain ⟨checksums, hcs, he⟩ := @ReadChunkDone_spec ci { op with numBytesIO := m, status := 0 } buf _ hv hne
  have hstart : OffsetToChecksumBlockStart op.offset = 0 := by
    simp only [OffsetToChecksumBlockStart, CHECKSUM_BLOCKSIZE] at ho ⊢
    omega
  have hnum : OffsetToChecksumBlockNum op.offset = 0 := Nat.div_eq_of_lt ho
  -- the scan compares the blocks with their own checksums
  have hmis : mismatch ci.chunkBlockChecksum (OffsetToChecksumBlockStart op.offset) checksums = true ↔
      ∃ i, i * CHECKSUM_BLOCKSIZE < buf.flatten.length ∧ Differs ci buf.flatten 0 i := by
    rw [mismatch_iff, hstart]
    constructor
    · rintro ⟨i, c, hc, -, h0, hne⟩
      rw [Nat.zero_add] at h0 hne
      obtain ⟨hi, hc⟩ := (hcs i c).mp hc
      refine ⟨i, hi, h0, ?_⟩
      have hck := hc 0
      rw [Nat.zero_add] at hck
      rw [← hck]
      exact Ne.symm hne
    · rintro ⟨i, hi, h0, hne⟩
      refine ⟨i, ComputeBlockChecksum (paddedBlock buf.flatten 0 i), (hcs i _).mpr ⟨hi, fun first => ?_⟩, ?_, ?_, ?_⟩
      · simp [paddedBlock]
      · simp only [CHECKSUM_BLOCKSIZE, CHUNKSIZE, MAX_CHUNK_CHECKSUM_BLOCKS] at hi hsize ⊢
        omega
      · simpa using h0
      · simpa using Ne.symm hne
  rw [he]
  split_ifs with hm
  · refine ⟨_, rfl, fun hst => absurd hst (show ¬ (0 : ℤ) ≤ -EBADCKSUM by decide), fun _ _ _ => rfl⟩
  · have hgood : ∀ i, i * CHECKSUM_BLOCKSIZE < buf.flatten.length → ¬ Differs ci buf.flatten 0 i := fun i hi hd =>
      hm (hmis.mpr ⟨i, hi, hd⟩)
    refine ⟨_, rfl, fun _ j hj => ?_, fun j hj hd => ?_⟩
    · -- the block of a byte that is returned has been read
      change ¬ Differs ci buf.flatten (OffsetToChecksumBlockNum op.offset) _
      rw [hnum]
      refine hgood _ ?_
      have hlen : j < (ZeroPad buf).flatten.length - (op.offset - OffsetToChecksumBlockStart op.offset) := by
        have : j < (((ZeroPad buf).flatten.drop (op.offset - OffsetToChecksumBlockStart op.offset)).take m).length := by
          simpa [AdjustDataRead] using hj
        rw [List.length_take, List.length_drop] at this
        omega
      rw [ZeroPad_flatten, List.length_append, List.length_replicate, hstart] at hlen
      change (op.offset + j) / CHECKSUM_BLOCKSIZE * CHECKSUM_BLOCKSIZE < _
      simp only [CHECKSUM_BLOCKSIZE] at hlen ⊢
      omega
    · change Differs ci buf.flatten (OffsetToChecksumBlockNum op.offset)
        (OffsetToChecksumBlockNum (OffsetToChecksumBlockStart op.offset + j)) at hd
      rw [hnum, hstart] at hd
      refine absurd hd (hgood _ ?_)
      simp only [OffsetToChecksumBlockNum, CHECKSUM_BLOCKSIZE]
      omega

/-- **A read is verified, whatever is on disk, exactly when it starts in the first checksum block.** -/
theorem verified_iff (hn : 0 < op.numBytes) (ho : op.offset < CHUNKSIZE) :
    (∀ (ci : ChunkInfo) (disk : ℕ → UInt8) (buf : IOBuffer) (offset n : ℕ) (op₁ : ReadOp), ci.chunkSize ≤ CHUNKSIZE →
      ReadChunk ci op = .ok (offset, n, op₁) → buf.flatten = diskBytes disk offset n →
      ∃ op₂, ReadChunkDone (some ci) { op₁ with dataBuf := buf } = some op₂ ∧ Verified ci op₁ op₂ buf.flatten) ↔
      op.offset < CHECKSUM_BLOCKSIZE := by
  constructor
  · intro h
    by_contra hlate
    -- a chunk of zeros with wrong checksums
    set ci : ChunkInfo := ⟨op.chunkVersion, CHUNKSIZE, fun _ => 7⟩ with hci
    obtain ⟨offset, n, op₁, hr⟩ : ∃ offset n op₁, ReadChunk ci op = .ok (offset, n, op₁) := by
      unfold ReadChunk
      rw [if_neg (by simp [hci])]
      dsimp only
      rw [if_neg (show ¬ op.offset ≥ ci.chunkSize from not_le.mpr ho)]
      rw [if_neg]
      · exact ⟨_, _, _, rfl⟩
      · change ¬ (if op.offset + op.numBytes > CHUNKSIZE then CHUNKSIZE - op.offset else op.numBytes) = 0
        split_ifs <;> omega
    obtain ⟨-, -, -, hpos, -, m, rfl⟩ := ReadChunk_spec hr
    have hzero : diskBytes (fun _ => 0) offset n = List.replicate n 0 := diskBytes_zeros
    have hver := h ci (fun _ => 0) [diskBytes (fun _ => 0) offset n] offset n _ le_rfl hr (by simp)
    refine @late_not_verified { op with numBytesIO := m, status := 0 } n _ _ (not_lt.mp hlate) rfl ?_ hpos CHUNKSIZE
      hver
    simpa using hzero
  · intro hfirst ci disk buf offset n op₁ hsize hr hb
    exact first_verified hsize hr (by rw [hb, length_diskBytes]) hfirst

end

/-- Three bytes from the start of a chunk of five. -/
def firstRead : ReadOp := ⟨1, 0, 3, 3, 0, [diskBytes (fun _ => 0) 0 5]⟩

theorem firstRead_verified : ∃ op₂, ReadChunkDone (some ⟨1, 5, fun _ => 7⟩) firstRead = some op₂ ∧
    Verified ⟨1, 5, fun _ => 7⟩ firstRead op₂ (diskBytes (fun _ => 0) 0 5) := by
  have hr : ReadChunk ⟨1, 5, fun _ => 7⟩ firstRead = .ok (0, 5, firstRead) := by
    simp [ReadChunk, firstRead, OffsetToChecksumBlockStart, CHECKSUM_BLOCKSIZE]
  have h := (@verified_iff firstRead _ (by decide) (by decide)).mpr (by decide) ⟨1, 5, fun _ => 7⟩ (fun _ => 0)
    [diskBytes (fun _ => 0) 0 5] 0 5 firstRead (by decide) hr (by simp)
  rw [List.flatten_singleton] at h
  exact h

/-- A byte from the second block of a chunk. -/
def lateRead : ReadOp := ⟨1, 65536, 1, 1, 0, [List.replicate 1 0]⟩

/-- The byte is returned although the stored checksum of its block is wrong. -/
theorem lateRead_not_verified : ReadChunk ⟨1, 65537, fun _ => 7⟩ lateRead = .ok (65536, 1, lateRead) ∧
    ¬ ∃ op₂, ReadChunkDone (some ⟨1, 65537, fun _ => 7⟩) lateRead = some op₂ ∧
      Verified ⟨1, 65537, fun _ => 7⟩ lateRead op₂ (List.replicate 1 0) := by
  refine ⟨by simp [ReadChunk, lateRead, OffsetToChecksumBlockStart, CHECKSUM_BLOCKSIZE], fun h => ?_⟩
  refine @late_not_verified lateRead 1 [List.replicate 1 0] _ (by decide) rfl (by simp) (by decide) 65537 ?_
  rw [List.flatten_singleton]
  exact h

end Kfs.Chunk
