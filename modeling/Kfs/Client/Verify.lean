import Kfs.Chunk.Checksum
import Kfs.Client.Location
import Kfs.Lib.LowerBound

/-!
# Checking data against the checksums of the chunk servers

`VerifyDataChecksums` computes the checksums of a buffer, block by block, and compares them with the checksums that the
chunk servers have for the chunks of the file, one chunk after the other.

* `bufferChecksums`, `verifyChunks`, `VerifyDataChecksums`;
* `Stored`: what the chunk servers have for a chunk; `fileRange`: the bytes of a range of the file;
* **`VerifyDataChecksums_iff`**: the buffer with the bytes of a range passes exactly when each block that is compared
  has the checksum of the first bytes of the range.
-/

namespace Kfs.Client.Verify

open Kfs.Lib Chunk

structure ChunkLayoutInfo where
  fileOffset : ℕ
  chunkId : ℤ
  chunkServers : List Location.ServerLocation

/-- What `VerifyDataChecksums` finds: the attributes of the file, the answer to `GetLayoutOp`, and the words that come
back for `GetChunkMetadataOp`, unless there is no connection. -/
structure Env where
  isDirectory : Bool
  layoutStatus : ℤ
  chunks : List ChunkLayoutInfo
  reply : Location.ServerLocation → ℤ → Option (List UInt32)

def numChecksums : ℕ := MAX_CHUNK_CHECKSUM_BLOCKS

variable (env : Env)

def GetDataChecksums (loc : Location.ServerLocation) (chunkId : ℤ) : Option (List UInt32) :=
  match env.reply loc chunkId with
  | none => none
  | some contentBuf => if contentBuf.length < numChecksums then none else some (contentBuf.take numChecksums)

/-- The loop over `v`: whether all checksums match as far as there are any. -/
def matches? (checksums : List UInt32) (blkstart : ℕ) (chunkChecksums : List UInt32) : Bool :=
  ((List.range numChecksums).takeWhile fun v => (blkstart + v) % 2 ^ 32 < checksums.length).all fun v =>
    chunkChecksums[v]? = checksums[(blkstart + v) % 2 ^ 32]?

/-- The loop over the chunks. -/
def verifyChunks (checksums : List UInt32) (blkstart : ℕ) : List ChunkLayoutInfo → Bool
  | [] => true
  | i :: rest =>
    (i.chunkServers.all fun loc =>
      match GetDataChecksums env loc i.chunkId with
      | none => false
      | some chunkChecksums => matches? checksums blkstart chunkChecksums) &&
    verifyChunks checksums (blkstart + numChecksums) rest

/-- `VerifyDataChecksums` for checksums. -/
def verifyChecksums (checksums : List UInt32) : Bool :=
  if env.layoutStatus < 0 then false else verifyChunks env checksums 0 env.chunks

theorem blocksize_pos : 0 < CHECKSUM_BLOCKSIZE := by
  norm_num [CHECKSUM_BLOCKSIZE]

def bytesToCopy (numBytes i : ℕ) : ℕ := min CHECKSUM_BLOCKSIZE ((numBytes - i) % 2 ^ 32)

/-- `tempBuf` when the bytes have been copied to it. -/
def fill (tempBuf buf : List UInt8) (k : ℕ) : List UInt8 :=
  buf.take k ++ (if k ≠ CHECKSUM_BLOCKSIZE then List.replicate CHECKSUM_BLOCKSIZE 0 else tempBuf).drop k

/-- The loop over the blocks of the buffer, for the values of `i` still to come. -/
def bufferChecksums [Zlib] (buf : List UInt8) (numBytes : ℕ) (tempBuf : List UInt8) : List ℕ → List UInt32
  | [] => []
  | i :: rest =>
    let tempBuf := fill tempBuf buf (bytesToCopy numBytes i)
    ComputeBlockChecksum tempBuf :: bufferChecksums buf numBytes tempBuf rest

/-- `tempBuf` is the memory that has been allocated for it. -/
def VerifyDataChecksums [Zlib] (tempBuf : List UInt8) (_offset : ℕ) (buf : List UInt8) (numBytes : ℕ) : Bool :=
  if env.isDirectory then false
  else
    verifyChecksums env
      (bufferChecksums buf numBytes tempBuf (Location.positions CHECKSUM_BLOCKSIZE blocksize_pos numBytes 0))

/-! ## The stored data -/

/-- A block with zeros behind it. -/
def padded (l : List UInt8) : List UInt8 := l ++ List.replicate (CHECKSUM_BLOCKSIZE - l.length) 0

/-- The checksum that is stored for a block of a chunk with these bytes; behind the end of the chunk it is any. -/
def storedSum [Zlib] (bytes : List UInt8) (rest : ℕ → UInt32) (v : ℕ) : UInt32 :=
  if v * CHECKSUM_BLOCKSIZE < bytes.length then ComputeBlockChecksum (padded (slice bytes v)) else rest v

/-- The chunk servers have the checksums of the data of the chunks. -/
def Stored [Zlib] (data : ℤ → List UInt8) (rest : Location.ServerLocation → ℤ → ℕ → UInt32) : Prop :=
  ∀ i ∈ env.chunks, ∀ loc ∈ i.chunkServers,
    env.reply loc i.chunkId = some ((List.range numChecksums).map (storedSum (data i.chunkId) (rest loc i.chunkId)))

/-- A byte of the file: where it has no chunk, and behind the end of a chunk, it reads zeros. -/
def fileByte (data : ℤ → List UInt8) (p : ℕ) : UInt8 :=
  match env.chunks.find? fun i => i.fileOffset = p / Chunk.CHUNKSIZE * Chunk.CHUNKSIZE with
  | some i => (data i.chunkId).getD (p % Chunk.CHUNKSIZE) 0
  | none => 0

def fileRange (data : ℤ → List UInt8) (offset numBytes : ℕ) : List UInt8 :=
  (List.range numBytes).map fun k => fileByte env data (offset + k)

/-- Where the block of the buffer begins that is compared with block `v` of the `n`th chunk. -/
def position (n v : ℕ) : ℕ := ((n * numChecksums) % 2 ^ 32 + v) * CHECKSUM_BLOCKSIZE

/-- Every block of the range that is compared with a block of a chunk has the checksum of the range's first bytes. -/
def Repeats [Zlib] (data : ℤ → List UInt8) (rest : Location.ServerLocation → ℤ → ℕ → UInt32)
    (offset numBytes : ℕ) : Prop :=
  ∀ (n : ℕ) (i : ChunkLayoutInfo), env.chunks[n]? = some i → ∀ loc ∈ i.chunkServers, ∀ v < numChecksums,
    position n v < numBytes → storedSum (data i.chunkId) (rest loc i.chunkId) v =
      ComputeBlockChecksum (padded (fileRange env data offset (bytesToCopy numBytes (position n v))))

/-! ## The checksums of the buffer -/

section

variable {env} {buf tempBuf : List UInt8} {numBytes k v blkstart : ℕ} {checksums chunkChecksums : List UInt32}

theorem fill_eq (hbuf : k ≤ buf.length) (htemp : tempBuf.length = CHECKSUM_BLOCKSIZE) :
    fill tempBuf buf k = padded (buf.take k) := by
  have hlen : (buf.take k).length = k := List.length_take_of_le hbuf
  rw [fill, padded, hlen]
  split_ifs with h
  · rw [List.drop_replicate]
  · rw [not_not.1 h, List.drop_eq_nil_of_le htemp.le, Nat.sub_self]
    rfl

theorem padded_length (l : List UInt8) (h : l.length ≤ CHECKSUM_BLOCKSIZE) :
    (padded l).length = CHECKSUM_BLOCKSIZE := by
  rw [padded, List.length_append, List.length_replicate]
  omega

theorem bytesToCopy_le (numBytes i : ℕ) : bytesToCopy numBytes i ≤ CHECKSUM_BLOCKSIZE ∧
    bytesToCopy numBytes i ≤ numBytes - i :=
  ⟨min_le_left _ _, (min_le_right _ _).trans (Nat.mod_le _ _)⟩

theorem bufferChecksums_eq [Zlib] {is : List ℕ} (htemp : tempBuf.length = CHECKSUM_BLOCKSIZE) :
    bufferChecksums buf buf.length tempBuf is =
      is.map fun i => ComputeBlockChecksum (padded (buf.take (bytesToCopy buf.length i))) := by
  induction is generalizing tempBuf with
  | nil => rfl
  | cons i rest ih =>
    obtain ⟨hblock, hle⟩ := bytesToCopy_le buf.length i
    have hfill := fill_eq (hle.trans (Nat.sub_le _ _)) htemp
    have hnext : (padded (buf.take (bytesToCopy buf.length i))).length = CHECKSUM_BLOCKSIZE :=
      padded_length _ ((List.length_take_le _ _).trans hblock)
    rw [bufferChecksums, hfill, List.map_cons, ih hnext]

/-! ## The comparison -/

theorem matches_iff (hblk : blkstart % numChecksums = 0) : matches? checksums blkstart chunkChecksums = true ↔
    ∀ v < numChecksums, blkstart % 2 ^ 32 + v < checksums.length →
      chunkChecksums[v]? = checksums[blkstart % 2 ^ 32 + v]? := by
  have hindex : ∀ v < numChecksums, (blkstart + v) % 2 ^ 32 = blkstart % 2 ^ 32 + v := by
    intro v hv
    rw [numChecksums, MAX_CHUNK_CHECKSUM_BLOCKS] at hblk hv
    omega
  have hsplit : Split (fun v => decide ((blkstart + v) % 2 ^ 32 < checksums.length)) (List.range numChecksums) := by
    have hbounded : (List.range numChecksums).Pairwise fun a b => a < b ∧ b < numChecksums :=
      List.pairwise_lt_range.imp_of_mem fun _ hb hab => ⟨hab, List.mem_range.1 hb⟩
    refine Split.of_pairwise hbounded fun a b hab hb => ?_
    rw [decide_eq_true_iff, hindex b hab.2] at hb
    rw [decide_eq_true_iff, hindex a (hab.1.trans hab.2)]
    omega
  rw [matches?, takeWhile_eq_filter hsplit, List.all_eq_true]
  simp only [List.mem_filter, List.mem_range, decide_eq_true_iff, and_imp]
  refine forall_congr' fun v => forall_congr' fun hv => ?_
  rw [hindex v hv]

theorem Stored.sums [Zlib] {data : ℤ → List UInt8} {rest : Location.ServerLocation → ℤ → ℕ → UInt32}
    {i : ChunkLayoutInfo} {loc : Location.ServerLocation} (h : Stored env data rest) (hi : i ∈ env.chunks)
    (hloc : loc ∈ i.chunkServers) :
    GetDataChecksums env loc i.chunkId =
      some ((List.range numChecksums).map (storedSum (data i.chunkId) (rest loc i.chunkId))) := by
  rw [GetDataChecksums, h i hi loc hloc]
  dsimp only
  rw [List.length_map, List.length_range, if_neg (lt_irrefl _), List.take_of_length_le]
  rw [List.length_map, List.length_range]

theorem verifyChunks_iff {chunks : List ChunkLayoutInfo} (hblk : blkstart % numChecksums = 0) :
    verifyChunks env checksums blkstart chunks = true ↔
      ∀ (n : ℕ) (i : ChunkLayoutInfo), chunks[n]? = some i → ∀ loc ∈ i.chunkServers,
        ∃ sums, GetDataChecksums env loc i.chunkId = some sums ∧
          matches? checksums (blkstart + n * numChecksums) sums = true := by
  induction chunks generalizing blkstart with
  | nil => simp [verifyChunks]
  | cons i rest ih =>
    have hnext : (blkstart + numChecksums) % numChecksums = 0 := by rw [Nat.add_mod_right, hblk]
    rw [verifyChunks, Bool.and_eq_true, ih hnext, List.all_eq_true]
    have hone : ∀ loc, (match GetDataChecksums env loc i.chunkId with
        | none => false
        | some chunkChecksums => matches? checksums blkstart chunkChecksums) = true ↔
        ∃ sums, GetDataChecksums env loc i.chunkId = some sums ∧ matches? checksums blkstart sums = true := by
      intro loc
      cases GetDataChecksums env loc i.chunkId with
      | none => simp
      | some sums => simp
    simp only [hone]
    constructor
    · rintro ⟨hfirst, hrest⟩ n j hj loc hloc
      cases n with
      | zero =>
        cases hj
        rw [Nat.zero_mul, Nat.add_zero]
        exact hfirst loc hloc
      | succ n =>
        obtain ⟨sums, hsums, hmatch⟩ := hrest n j hj loc hloc
        refine ⟨sums, hsums, ?_⟩
        rwa [Nat.succ_mul, Nat.add_comm (n * _), ← Nat.add_assoc]
    · intro h
      refine ⟨fun loc hloc => ?_, fun n j hj loc hloc => ?_⟩
      · have hzero := h 0 i rfl loc hloc
        rwa [Nat.zero_mul, Nat.add_zero] at hzero
      · have hsucc := h (n + 1) j hj loc hloc
        rwa [Nat.succ_mul, Nat.add_comm (n * _), ← Nat.add_assoc] at hsucc

end

/-- **The buffer passes** exactly when all blocks that are compared have the checksums of the range's first bytes. -/
theorem VerifyDataChecksums_iff [Zlib] (env : Env) (data : ℤ → List UInt8)
    (rest : Location.ServerLocation → ℤ → ℕ → UInt32) (hfile : env.isDirectory = false)
    (hlayout : 0 ≤ env.layoutStatus) (hstored : Stored env data rest) (offset : ℕ) (buf tempBuf : List UInt8)
    (htemp : tempBuf.length = CHECKSUM_BLOCKSIZE) (hbuf : buf = fileRange env data offset buf.length) :
    VerifyDataChecksums env tempBuf offset buf buf.length = true ↔ Repeats env data rest offset buf.length := by
  obtain ⟨n, hn⟩ : ∃ n, n = (buf.length - 0 + CHECKSUM_BLOCKSIZE - 1) / CHECKSUM_BLOCKSIZE := ⟨_, rfl⟩
  have hcount : ∀ j, j < n ↔ j * CHECKSUM_BLOCKSIZE < buf.length := by
    intro j
    rw [hn, CHECKSUM_BLOCKSIZE]
    omega
  have htake : ∀ k ≤ buf.length, buf.take k = fileRange env data offset k := by
    intro k hk
    conv_lhs => rw [hbuf]
    rw [fileRange, fileRange, ← List.map_take, List.take_range, min_eq_left hk]
  rw [VerifyDataChecksums, hfile, if_neg Bool.false_ne_true, bufferChecksums_eq htemp, Location.positions_eq, ← hn,
    verifyChecksums, if_neg hlayout.not_gt, verifyChunks_iff (Nat.zero_mod _), List.map_map, Repeats]
  refine forall_congr' fun m => forall_congr' fun i => forall_congr' fun hi => forall_congr' fun loc =>
    forall_congr' fun hloc => ?_
  rw [hstored.sums (List.mem_of_getElem? hi) hloc]
  simp only [Option.some.injEq, exists_eq_left', Nat.zero_add]
  rw [matches_iff (Nat.mul_mod_left _ _)]
  refine forall_congr' fun v => forall_congr' fun hv => ?_
  rw [List.length_map, List.length_range, hcount, position]
  refine forall_congr' fun hpos => ?_
  rw [List.getElem?_map, List.getElem?_range hv, List.getElem?_map, List.getElem?_range ((hcount _).2 hpos),
    Option.map_some, Option.map_some, Option.some.injEq, Function.comp_apply,
    htake _ ((bytesToCopy_le _ _).2.trans (Nat.sub_le _ _))]

/-- One chunk server with a file of one chunk. -/
def oneChunk [Zlib] (bytes : List UInt8) : Env where
  isDirectory := false
  layoutStatus := 0
  chunks := [⟨0, 1, [⟨"a", 30000⟩]⟩]
  reply _ _ := some ((List.range numChecksums).map (storedSum bytes fun _ => 0))

theorem oneChunk_stored [Zlib] (bytes : List UInt8) : Stored (oneChunk bytes) (fun _ => bytes) fun _ _ _ => 0 := by
  intro i _ loc _
  rfl

/-- A file of one byte. -/
theorem VerifyDataChecksums_byte :
    VerifyDataChecksums (oneChunk [7]) (List.replicate CHECKSUM_BLOCKSIZE 0) 0 [7] 1 = true := by
  have hone : bytesToCopy 1 0 = 1 := by norm_num [bytesToCopy, CHECKSUM_BLOCKSIZE]
  refine (VerifyDataChecksums_iff (oneChunk [7]) (fun _ => [7]) (fun _ _ _ => 0) rfl le_rfl (oneChunk_stored _) 0 [7] _
    List.length_replicate rfl).2 ?_
  intro n i hi loc hloc v hv hpos
  have hn : n = 0 := Nat.lt_one_iff.1 (List.getElem?_eq_some_iff.1 hi).1
  have hzero : position n v = 0 ∧ v = 0 := by
    have hlt : position n v = 0 := Nat.lt_one_iff.1 hpos
    have hmul := (Nat.mul_eq_zero.1 hlt).resolve_right blocksize_pos.ne'
    exact ⟨hlt, (Nat.add_eq_zero_iff.1 hmul).2⟩
  rw [hzero.1, hzero.2, List.length_singleton, hone, storedSum, if_pos (by rw [Nat.zero_mul]; exact one_pos), slice,
    Nat.zero_mul, List.drop_zero, List.take_of_length_le blocksize_pos]
  rfl

/-! ## The second block of a chunk -/

/-- A block of zeros, and a byte behind it. -/
def twoBlocks : List UInt8 := List.replicate CHECKSUM_BLOCKSIZE 0 ++ [1]

theorem VerifyDataChecksums_second : Stored (oneChunk twoBlocks) (fun _ => twoBlocks) (fun _ _ _ => 0) ∧
    [1] = fileRange (oneChunk twoBlocks) (fun _ => twoBlocks) CHECKSUM_BLOCKSIZE 1 ∧
    VerifyDataChecksums (oneChunk twoBlocks) (List.replicate CHECKSUM_BLOCKSIZE 0) CHECKSUM_BLOCKSIZE [1] 1 =
      false := by
  have hlen : twoBlocks.length = CHECKSUM_BLOCKSIZE + 1 := by
    rw [twoBlocks, List.length_append, List.length_replicate, List.length_singleton]
  refine ⟨oneChunk_stored _, ?_, ?_⟩
  · have hbyte : fileByte (oneChunk twoBlocks) (fun _ => twoBlocks) CHECKSUM_BLOCKSIZE = 1 := by
      have hzero : CHECKSUM_BLOCKSIZE / Chunk.CHUNKSIZE * Chunk.CHUNKSIZE = 0 := by
        norm_num [CHECKSUM_BLOCKSIZE, Chunk.CHUNKSIZE]
      have hmod : CHECKSUM_BLOCKSIZE % Chunk.CHUNKSIZE = CHECKSUM_BLOCKSIZE := by
        norm_num [CHECKSUM_BLOCKSIZE, Chunk.CHUNKSIZE]
      rw [fileByte, hzero, hmod]
      change twoBlocks.getD CHECKSUM_BLOCKSIZE 0 = 1
      rw [twoBlocks, List.getD_append_right _ _ _ _ (by rw [List.length_replicate]), List.length_replicate,
        Nat.sub_self]
      rfl
    rw [fileRange, List.range_one, List.map_singleton, Nat.add_zero, hbyte]
  · refine Bool.eq_false_iff.2 fun h => ?_
    have hpositions : Location.positions CHECKSUM_BLOCKSIZE blocksize_pos 1 0 = [0] := by
      rw [Location.positions, if_pos one_pos, Location.positions, if_neg (by have := blocksize_pos; omega)]
    have hone : bytesToCopy 1 0 = 1 := by norm_num [bytesToCopy, CHECKSUM_BLOCKSIZE]
    have hsums := @bufferChecksums_eq [1] _ _ [0]
      (List.length_replicate : (List.replicate CHECKSUM_BLOCKSIZE (0 : UInt8)).length = _)
    rw [List.length_singleton, List.map_singleton, hone] at hsums
    have hfile : (oneChunk twoBlocks).isDirectory = false := rfl
    rw [VerifyDataChecksums, hfile, if_neg Bool.false_ne_true, hpositions, hsums, verifyChecksums,
      if_neg (show ¬ (oneChunk twoBlocks).layoutStatus < 0 from lt_irrefl _)] at h
    obtain ⟨sums, hget, hmatch⟩ :=
      (verifyChunks_iff (Nat.zero_mod _)).1 h 0 ⟨0, 1, [⟨"a", 30000⟩]⟩ rfl ⟨"a", 30000⟩ List.mem_cons_self
    rw [(oneChunk_stored twoBlocks).sums List.mem_cons_self List.mem_cons_self, Option.some.injEq] at hget
    have hnum : 0 < numChecksums := by decide
    rw [Nat.zero_mul, Nat.add_zero] at hmatch
    have hfirst := (matches_iff (Nat.zero_mod _)).1 hmatch 0 hnum one_pos
    rw [← hget, List.getElem?_map, List.getElem?_range hnum] at hfirst
    have hsame : storedSum twoBlocks (fun _ => 0) 0 = ComputeBlockChecksum (padded [1]) := Option.some.inj hfirst
    have hblock : padded (slice twoBlocks 0) = List.replicate CHECKSUM_BLOCKSIZE 0 := by
      have hslice : slice twoBlocks 0 = List.replicate CHECKSUM_BLOCKSIZE 0 := by
        rw [slice, Nat.zero_mul, List.drop_zero, twoBlocks, List.take_left' List.length_replicate]
      rw [hslice, padded, List.length_replicate, Nat.sub_self, List.replicate_zero, List.append_nil]
    rw [storedSum, if_pos (by rw [hlen]; omega), hblock] at hsame
    have hzeros := adler32_zeros 1 CHECKSUM_BLOCKSIZE (by decide)
    have hlow := adler32_low 1 1 (by decide)
    have hbyte := adler32_zeros (adler32 1 [1]) (CHECKSUM_BLOCKSIZE - 1) (by rw [hlow]; decide)
    rw [← ComputeBlockChecksum, hsame] at hzeros
    have hcontinued : ComputeBlockChecksum (padded [1]) =
        adler32 (adler32 1 [1]) (List.replicate (CHECKSUM_BLOCKSIZE - 1) 0) := adler32_append 1 [1] _
    rw [← hcontinued, hzeros, hlow] at hbyte
    exact absurd hbyte (by decide)

end Kfs.Client.Verify
