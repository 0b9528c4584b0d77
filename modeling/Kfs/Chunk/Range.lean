import Kfs.Chunk.Ops

/-!
# The range of a read

`ReadChunk` widens a read to whole checksum blocks: it rounds the start down and, from the number of bytes alone, the
length up. `ReadChunkDone` cuts off what was not asked for, `ReadOp::HandleDone` reports the number of bytes that are
left.

* `ReadChunk64`: `ReadChunk` in the 64 bits of the code;
* `Returns`: what a read comes to;
* **`returns_iff`**: a read returns its range exactly when the rounded length reaches the end of it.
-/

namespace Kfs.Chunk

/-- The conversion to `off_t`. -/
def off_t (n : ℕ) : ℤ :=
  if n % 2 ^ 64 < 2 ^ 63 then (n % 2 ^ 64 : ℕ) else (n % 2 ^ 64 : ℕ) - 2 ^ 64

/-- The number of bytes rounded up to whole checksum blocks. -/
def roundUp (n : ℕ) : ℕ :=
  if n % CHECKSUM_BLOCKSIZE ≠ 0 then n / CHECKSUM_BLOCKSIZE * CHECKSUM_BLOCKSIZE + CHECKSUM_BLOCKSIZE
  else n / CHECKSUM_BLOCKSIZE * CHECKSUM_BLOCKSIZE

/-- `ReadChunk` with the sums in 64 bits. -/
def ReadChunk64 (ci : ChunkInfo) (op : ReadOp) : Except ℤ (ℕ × ℕ × ReadOp) :=
  if op.chunkVersion ≠ ci.chunkVersion then .error (-EBADVERS)
  else
    let numBytesIO :=
      if op.offset ≥ ci.chunkSize then 0
      else if off_t (op.offset + op.numBytes) > ci.chunkSize then ci.chunkSize - op.offset
      else op.numBytes
    let op := { op with numBytesIO := numBytesIO, status := 0 }
    if numBytesIO = 0 then .error (- EIO)
    else
      let offset := OffsetToChecksumBlockStart op.offset
      let n := roundUp numBytesIO
      let n := if off_t (offset + n) > ci.chunkSize then ci.chunkSize - offset else n
      .ok (offset, n, op)

/-- `ReadOp::HandleDone` when the disk has delivered `data`. -/
def ReadOp.delivered (ci : ChunkInfo) (op : ReadOp) (data : List UInt8) : Option ReadOp :=
  match ReadChunkDone (some ci) { op with dataBuf := [data] } with
  | none => none
  | some op =>
    let numBytesIO := op.dataBuf.flatten.length
    some { op with numBytesIO := numBytesIO, status := if op.status = 0 then numBytesIO else op.status }

/-- It is what the chunk server makes of the read. -/
theorem setStatus_delivered {st : Cs} {c : ℕ} {cih : ChunkInfoHandle} {checksums : ℕ → UInt32} {op : ReadOp}
    {data : List UInt8} (he : st.mChunkTable c = some cih) (hs : cih.chunkBlockChecksum = some checksums)
    (hv : op.chunkVersion = cih.chunkVersion) :
    (ReadOp.setStatus st c op (some data)).map Prod.snd =
      op.delivered ⟨cih.chunkVersion, cih.chunkSize, checksums⟩ data := by
  unfold ReadOp.setStatus ReadOp.delivered ChunkManager.checkRead
  simp only [he, hs]
  rw [if_neg (not_not.mpr hv)]
  generalize ReadChunkDone (some ⟨cih.chunkVersion, cih.chunkSize, checksums⟩) { op with dataBuf := [data] } = done
  cases done with
  | none => rfl
  | some op' => rfl

/-- A read of a chunk with the bytes `disk` returns `data`: what is scheduled lies within the chunk, where the disk has
it, and leads to these bytes and their number. -/
def Returns (ci : ChunkInfo) (disk : ℕ → UInt8) (op : ReadOp) (data : List UInt8) : Prop :=
  ∃ offset n op₁ op₂, ReadChunk64 ci op = .ok (offset, n, op₁) ∧ offset + n ≤ ci.chunkSize ∧
    op₁.delivered ci (diskBytes disk offset n) = some op₂ ∧
    op₂.dataBuf.flatten = data ∧ op₂.numBytesIO = data.length ∧ op₂.status = data.length

/-- The stored checksums, as far as there are any, are those of the blocks on disk. -/
def Matches (ci : ChunkInfo) (disk : ℕ → UInt8) : Prop :=
  ∀ k, ¬ Differs ci (diskBytes disk 0 ci.chunkSize) 0 k

variable {ci : ChunkInfo} {disk : ℕ → UInt8} {op op₁ : ReadOp} {o m n k : ℕ}

theorem roundUp_eq (n : ℕ) : roundUp n = (n + 65535) / 65536 * 65536 := by
  unfold roundUp CHECKSUM_BLOCKSIZE
  split_ifs with h
  · omega
  · omega

theorem le_roundUp (n : ℕ) : n ≤ roundUp n := by
  rw [roundUp_eq]
  omega

theorem roundUp_mod (n : ℕ) : roundUp n % CHECKSUM_BLOCKSIZE = 0 := by
  rw [roundUp_eq, CHECKSUM_BLOCKSIZE, Nat.mul_mod_left]

theorem roundUp_lt (n : ℕ) : roundUp n < n + CHECKSUM_BLOCKSIZE := by
  rw [roundUp_eq, CHECKSUM_BLOCKSIZE]
  omega

theorem off_t_of_lt (h : n < 2 ^ 63) : off_t n = n := by
  unfold off_t
  rw [Nat.mod_eq_of_lt (by omega), if_pos h]

theorem off_t_neg (h : 2 ^ 63 ≤ n) (hlt : n < 2 ^ 64) : off_t n < 0 := by
  unfold off_t
  rw [Nat.mod_eq_of_lt hlt, if_neg (by omega)]
  omega

/-! ## Scheduling -/

/-- What is scheduled for a range whose end fits into 64 bits. -/
theorem ReadChunk64_of_lt (hv : op.chunkVersion = ci.chunkVersion) (hsize : ci.chunkSize ≤ CHUNKSIZE)
    (ho : op.offset < ci.chunkSize) (hn : 0 < op.numBytes) (hlt : op.offset + op.numBytes < 2 ^ 63)
    (hm : m = min op.numBytes (ci.chunkSize - op.offset)) : ReadChunk64 ci op =
      .ok (OffsetToChecksumBlockStart op.offset,
        if OffsetToChecksumBlockStart op.offset + roundUp m > ci.chunkSize then
          ci.chunkSize - OffsetToChecksumBlockStart op.offset else roundUp m,
        { op with numBytesIO := m, status := 0 }) := by
  have hnum : (if op.offset ≥ ci.chunkSize then 0
      else if off_t (op.offset + op.numBytes) > ci.chunkSize then ci.chunkSize - op.offset
      else op.numBytes) = m := by
    rw [if_neg (not_le.mpr ho), off_t_of_lt hlt]
    split_ifs <;> omega
  have hfits : OffsetToChecksumBlockStart op.offset + roundUp m < 2 ^ 63 := by
    have hround := roundUp_lt m
    simp only [OffsetToChecksumBlockStart, CHECKSUM_BLOCKSIZE, CHUNKSIZE] at *
    omega
  have hend : off_t (OffsetToChecksumBlockStart op.offset + roundUp m) > ci.chunkSize ↔
      OffsetToChecksumBlockStart op.offset + roundUp m > ci.chunkSize := by
    rw [off_t_of_lt hfits]
    omega
  unfold ReadChunk64
  rw [if_neg (not_not.mpr hv)]
  dsimp only
  rw [hnum, if_neg (by omega)]
  simp only [hend]

/-- There it is what `ReadChunk` schedules. -/
theorem ReadChunk64_eq (hsize : ci.chunkSize ≤ CHUNKSIZE) (hn : 0 < op.numBytes)
    (hlt : op.offset + op.numBytes < 2 ^ 63) : ReadChunk64 ci op = ReadChunk ci op := by
  by_cases hv : op.chunkVersion = ci.chunkVersion
  · by_cases ho : op.offset < ci.chunkSize
    · rw [ReadChunk64_of_lt hv hsize ho hn hlt rfl]
      unfold ReadChunk
      rw [if_neg (not_not.mpr hv)]
      dsimp only
      have hnum : (if op.offset ≥ ci.chunkSize then 0
          else if op.offset + op.numBytes > ci.chunkSize then ci.chunkSize - op.offset
          else op.numBytes) = min op.numBytes (ci.chunkSize - op.offset) := by
        rw [if_neg (not_le.mpr ho)]
        split_ifs <;> omega
      have hpos : min op.numBytes (ci.chunkSize - op.offset) ≠ 0 := by omega
      rw [hnum, if_neg hpos]
      rfl
    · simp [ReadChunk64, ReadChunk, not_lt.mp ho]
  · simp [ReadChunk64, ReadChunk, hv]

/-- A range whose end does not fit is taken for one within the chunk, and more is scheduled than any chunk has. -/
theorem ReadChunk64_overflow (hv : op.chunkVersion = ci.chunkVersion) (hsize : ci.chunkSize ≤ CHUNKSIZE)
    (ho : op.offset < ci.chunkSize) (hn : op.numBytes < 2 ^ 63) (hge : 2 ^ 63 ≤ op.offset + op.numBytes) :
    ∃ offset n op₁, ReadChunk64 ci op = .ok (offset, n, op₁) ∧ ci.chunkSize < n := by
  have hnum : (if op.offset ≥ ci.chunkSize then 0
      else if off_t (op.offset + op.numBytes) > ci.chunkSize then ci.chunkSize - op.offset
      else op.numBytes) = op.numBytes := by
    have hneg := off_t_neg hge (by simp only [CHUNKSIZE] at hsize; omega)
    rw [if_neg (not_le.mpr ho), if_neg (by omega)]
  have hneg : off_t (OffsetToChecksumBlockStart op.offset + roundUp op.numBytes) < 0 := by
    apply off_t_neg
    · -- the sum is a number of whole blocks, and less than a block smaller than the end
      have hmod := roundUp_mod op.numBytes
      have hle := le_roundUp op.numBytes
      simp only [OffsetToChecksumBlockStart, CHECKSUM_BLOCKSIZE] at *
      omega
    · have hround := roundUp_lt op.numBytes
      simp only [OffsetToChecksumBlockStart, CHECKSUM_BLOCKSIZE, CHUNKSIZE] at *
      omega
  refine ⟨OffsetToChecksumBlockStart op.offset, roundUp op.numBytes,
    { op with numBytesIO := op.numBytes, status := 0 }, ?_, ?_⟩
  · unfold ReadChunk64
    rw [if_neg (not_not.mpr hv)]
    dsimp only
    rw [hnum, if_neg (by simp only [CHUNKSIZE] at hsize; omega), if_neg (by omega)]
  · have hle := le_roundUp op.numBytes
    simp only [CHUNKSIZE] at hsize
    omega

/-! ## What was read -/

theorem drop_diskBytes : (diskBytes disk o n).drop k = diskBytes disk (o + k) (n - k) := by
  apply List.ext_getElem
  · simp [diskBytes]
  · intro i h₁ h₂
    simp [diskBytes, Nat.add_assoc]

theorem take_diskBytes (h : k ≤ n) : (diskBytes disk o n).take k = diskBytes disk o k := by
  apply List.ext_getElem
  · simp [diskBytes, h]
  · intro i h₁ h₂
    simp [diskBytes]

/-- A block that was read whole, or up to the end of the chunk, is the block of the chunk. -/
theorem paddedBlock_diskBytes (hk : k * CHECKSUM_BLOCKSIZE < n)
    (hn : n % CHECKSUM_BLOCKSIZE = 0 ∧ n ≤ m ∨ n = m) :
    paddedBlock (diskBytes disk 0 n) 0 k = paddedBlock (diskBytes disk 0 m) 0 k := by
  obtain ⟨hmod, hle⟩ | rfl := hn
  · have hfull : k * CHECKSUM_BLOCKSIZE + CHECKSUM_BLOCKSIZE ≤ n := by
      simp only [CHECKSUM_BLOCKSIZE] at *
      omega
    simp only [paddedBlock, Nat.sub_zero, drop_diskBytes]
    rw [take_diskBytes (by omega), take_diskBytes (by omega)]
  · rfl

/-- With matching checksums the read comes to what is left when the ends are cut off. -/
theorem delivered_eq (hv : op₁.chunkVersion = ci.chunkVersion) (hst : op₁.status = 0) (hmatch : Matches ci disk)
    (hpos : 0 < n) (hn : n % CHECKSUM_BLOCKSIZE = 0 ∧ OffsetToChecksumBlockStart op₁.offset + n ≤ ci.chunkSize ∨
      OffsetToChecksumBlockStart op₁.offset + n = ci.chunkSize) :
    ∃ op₂, op₁.delivered ci (diskBytes disk (OffsetToChecksumBlockStart op₁.offset) n) = some op₂ ∧
      op₂.dataBuf.flatten = (((ZeroPad [diskBytes disk (OffsetToChecksumBlockStart op₁.offset) n]).flatten.drop
        (op₁.offset % CHECKSUM_BLOCKSIZE)).take op₁.numBytesIO) ∧
      op₂.numBytesIO = op₂.dataBuf.flatten.length ∧ op₂.status = op₂.dataBuf.flatten.length := by
  set data := diskBytes disk (OffsetToChecksumBlockStart op₁.offset) n with hdata
  have hne : ([data] : IOBuffer).flatten ≠ [] := by
    rw [List.flatten_singleton]
    exact List.ne_nil_of_length_pos (by rw [hdata, length_diskBytes]; exact hpos)
  obtain ⟨checksums, hcs, he⟩ := ReadChunkDone_spec hv hne
  have hmis : mismatch ci.chunkBlockChecksum (OffsetToChecksumBlockStart op₁.offset) checksums = false := by
    by_cases hfirst : op₁.offset < CHECKSUM_BLOCKSIZE
    · have hstart : OffsetToChecksumBlockStart op₁.offset = 0 := by
        simp only [OffsetToChecksumBlockStart, CHECKSUM_BLOCKSIZE] at *
        omega
      rw [hstart, Nat.zero_add] at hn
      rw [hstart] at hdata ⊢
      rw [Bool.eq_false_iff, ne_eq, mismatch_iff]
      rintro ⟨i, c, hc, -, h0, hdiff⟩
      obtain ⟨hi, hc⟩ := (hcs i c).mp hc
      have hblock := hc 0
      rw [List.flatten_singleton, hdata, length_diskBytes] at hi
      rw [List.flatten_singleton, Nat.zero_add, hdata, paddedBlock_diskBytes hi hn] at hblock
      rw [Nat.zero_add] at h0 hdiff
      apply hmatch i
      exact ⟨h0, fun h => hdiff (hblock.trans h.symm)⟩
    · exact mismatch_late (not_lt.mp hfirst)
  rw [hmis, if_neg Bool.false_ne_true] at he
  have hextra : op₁.offset - OffsetToChecksumBlockStart op₁.offset = op₁.offset % CHECKSUM_BLOCKSIZE := by
    simp only [OffsetToChecksumBlockStart, CHECKSUM_BLOCKSIZE]
    omega
  refine ⟨_, by rw [ReadOp.delivered, he], ?_, rfl, ?_⟩
  · simp only [AdjustDataRead, List.flatten_singleton, hextra]
  · simp only [AdjustDataRead, hst, if_true]

/-- **The range of a read.** With matching checksums, a read that starts within a chunk returns the bytes that were
asked for, up to the end of the chunk, exactly when their number rounded up to whole blocks reaches from the start of
the first block to their end. -/
theorem returns_iff (hv : op.chunkVersion = ci.chunkVersion) (hsize : ci.chunkSize ≤ CHUNKSIZE)
    (hmatch : Matches ci disk) (ho : op.offset < ci.chunkSize) (hn : 0 < op.numBytes) (hlong : op.numBytes < 2 ^ 63) :
    Returns ci disk op (diskBytes disk op.offset (min op.numBytes (ci.chunkSize - op.offset))) ↔
      op.offset + op.numBytes < 2 ^ 63 ∧
      op.offset % CHECKSUM_BLOCKSIZE + min op.numBytes (ci.chunkSize - op.offset) ≤
        roundUp (min op.numBytes (ci.chunkSize - op.offset)) := by
  by_cases hlt : op.offset + op.numBytes < 2 ^ 63
  · generalize hm : min op.numBytes (ci.chunkSize - op.offset) = m
    have hsched := ReadChunk64_of_lt hv hsize ho hn hlt hm.symm
    set start := OffsetToChecksumBlockStart op.offset with hstart
    have hoff : start + op.offset % CHECKSUM_BLOCKSIZE = op.offset := by
      simp only [hstart, OffsetToChecksumBlockStart, CHECKSUM_BLOCKSIZE]
      omega
    have hend : op.offset + m ≤ ci.chunkSize := by omega
    have hpos : 0 < m := by omega
    have hround := le_roundUp m
    generalize hN : (if start + roundUp m > ci.chunkSize then ci.chunkSize - start else roundUp m) = N at hsched
    have hwhole : N % CHECKSUM_BLOCKSIZE = 0 ∧ start + N ≤ ci.chunkSize ∨ start + N = ci.chunkSize := by
      split_ifs at hN with hcut
      · right
        omega
      · left
        rw [← hN]
        exact ⟨roundUp_mod m, not_lt.mp hcut⟩
    have hNpos : 0 < N := by
      split_ifs at hN <;> omega
    obtain ⟨op₂, hdone, hbytes, hnum, hst⟩ := @delivered_eq ci disk { op with numBytesIO := m, status := 0 } N
      hv rfl hmatch hNpos hwhole
    dsimp only at hdone hbytes
    rw [← hstart] at hdone hbytes
    have hiff : op.offset % CHECKSUM_BLOCKSIZE + m ≤ roundUp m ↔ op.offset % CHECKSUM_BLOCKSIZE + m ≤ N := by
      split_ifs at hN <;> omega
    rw [ZeroPad_flatten, List.flatten_singleton, length_diskBytes] at hbytes
    constructor
    · rintro ⟨offset, n, op₁, op₃, hr, -, hd, hdata, -⟩
      refine ⟨hlt, ?_⟩
      rw [hsched] at hr
      obtain ⟨rfl, rfl, rfl⟩ : start = offset ∧ N = n ∧ { op with numBytesIO := m, status := 0 } = op₁ := by
        simpa using hr
      rw [hdone] at hd
      obtain rfl := Option.some.inj hd
      -- too few bytes are left behind the start of the range
      have hlen := congrArg List.length (hbytes.symm.trans hdata)
      simp only [List.length_take, List.length_drop, List.length_append, List.length_replicate, length_diskBytes]
        at hlen
      obtain ⟨hmod, -⟩ | hfull := hwhole
      · rw [hmod, Nat.sub_zero, Nat.mod_self] at hlen
        omega
      · omega
    · rintro ⟨-, hreach⟩
      have hreach := hiff.mp hreach
      have hdata : op₂.dataBuf.flatten = diskBytes disk op.offset m := by
        rw [hbytes, List.drop_append_of_le_length (by rw [length_diskBytes]; omega), drop_diskBytes,
          List.take_append_of_le_length (by rw [length_diskBytes]; omega), take_diskBytes (by omega), hoff]
      refine ⟨start, N, _, op₂, hsched, by omega, hdone, hdata, ?_, ?_⟩
      · rw [hnum, hdata]
      · rw [hst, hdata]
  · refine iff_of_false ?_ fun h => hlt h.1
    obtain ⟨offset, n, op₁, hr, hbig⟩ := ReadChunk64_overflow hv hsize ho hlong (not_lt.mp hlt)
    rintro ⟨offset', n', op₁', op₂, hr', hle, -⟩
    rw [hr] at hr'
    obtain ⟨rfl, rfl, rfl⟩ : offset = offset' ∧ n = n' ∧ op₁ = op₁' := by simpa using hr'
    omega

/-- Three bytes from the start of a chunk of five return. -/
theorem returns_firstRead : Returns ⟨1, 5, fun _ => 0⟩ (fun _ => 0) ⟨1, 0, 3, 0, 0, []⟩ [0, 0, 0] := by
  have h := (@returns_iff ⟨1, 5, fun _ => 0⟩ (fun _ => 0) ⟨1, 0, 3, 0, 0, []⟩ rfl (by decide) (fun _ h => h.1 rfl)
    (by decide) (by decide) (by decide)).mpr (by decide)
  exact h

/-- Two bytes from the end of the first block on do not. -/
theorem returns_straddling : ¬ Returns ⟨1, 65537, fun _ => 0⟩ (fun _ => 0) ⟨1, 65535, 2, 0, 0, []⟩ [0, 0] := by
  intro h
  have hreach := ((@returns_iff ⟨1, 65537, fun _ => 0⟩ (fun _ => 0) ⟨1, 65535, 2, 0, 0, []⟩ rfl (by decide)
    (fun _ h => h.1 rfl) (by decide) (by decide) (by decide)).mp h).2
  exact absurd hreach (by decide)

end Kfs.Chunk
