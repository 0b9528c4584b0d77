import Kfs.Client.Healthy
import Kfs.Lib.Tiles

/-!
# A large write

`DoLargeWriteToServer` cuts a write into operations that the chunk servers can take: `WriteChunk` asserts that a write
is a whole number of checksum blocks, or starts inside a block and does not reach the end of it.

* `Fits`: what an operation may look like;
* **`splitWrite_tiles`**: the operations make up the write, each of them fits and has its part of the data.
-/

namespace Kfs.Client

open Kfs.Chunk (CHECKSUM_BLOCKSIZE OffsetToChecksumBlockStart)

/-- A write lies inside a checksum block, or consists of whole blocks. -/
def Fits (offset numBytes : ℕ) : Prop :=
  offset % CHECKSUM_BLOCKSIZE + numBytes ≤ CHECKSUM_BLOCKSIZE ∨
    offset % CHECKSUM_BLOCKSIZE = 0 ∧ numBytes % CHECKSUM_BLOCKSIZE = 0

theorem writeSize_fits (offset left : ℕ) : Fits offset (Fd.writeSize offset left) := by
  have hpos : 0 < CHECKSUM_BLOCKSIZE := by decide
  have hstart : offset / CHECKSUM_BLOCKSIZE * CHECKSUM_BLOCKSIZE + offset % CHECKSUM_BLOCKSIZE = offset :=
    Nat.div_add_mod' _ _
  have hsmall : min MAX_BYTES_PER_WRITE_IO left ≤ CHECKSUM_BLOCKSIZE := min_le_left _ _
  refine Or.inl ?_
  unfold Fd.writeSize
  simp only [not_lt.2 hsmall, and_false, if_false, OffsetToChecksumBlockStart, OffsetToChecksumBlockEnd, Nat.add_mul]
  split_ifs with hinside
  · have hmod := Nat.mod_lt offset hpos
    omega
  · have hzero : offset % CHECKSUM_BLOCKSIZE = 0 := by omega
    rw [hzero, Nat.zero_add]
    exact hsmall

section

variable {offset numAvail fuel r : ℕ} {buf : List UInt8}

theorem splitWrite_done (h : numAvail ≤ r) : Fd.splitWrite offset buf numAvail fuel r = [] := by
  cases fuel with
  | zero => rfl
  | succ fuel => rw [Fd.splitWrite, if_neg h.not_gt]

/-- What is left of a write, cut into operations. -/
theorem splitWrite_rest (hr : r ≤ numAvail) (hfuel : numAvail ≤ r + fuel) :
    Lib.Tiles WritePrepareOp.offset WritePrepareOp.numBytes (offset + r) (offset + numAvail)
      (Fd.splitWrite offset buf numAvail fuel r) := by
  induction fuel generalizing r with
  | zero =>
    obtain rfl : r = numAvail := by omega
    exact .nil
  | succ fuel ih =>
    cases hr.eq_or_lt with
    | inl heq =>
      rw [splitWrite_done heq.ge, heq]
      exact .nil
    | inr hlt =>
      obtain ⟨hpos, hle⟩ := writeSize_spec (offset + r) (Nat.sub_pos_of_lt hlt)
      have hrest := ih (r := r + Fd.writeSize (offset + r) (numAvail - r)) (by omega) (by omega)
      rw [← Nat.add_assoc] at hrest
      rw [Fd.splitWrite, if_pos hlt]
      exact Lib.Tiles.cons (x := WritePrepareOp.mk (offset + r) (Fd.writeSize (offset + r) (numAvail - r)) _ 0) hpos
        hrest

theorem mem_splitWrite {op : WritePrepareOp} (h : op ∈ Fd.splitWrite offset buf numAvail fuel r) :
    Fits op.offset op.numBytes ∧ op.contentBuf = (buf.drop (op.offset - offset)).take op.numBytes := by
  induction fuel generalizing r with
  | zero => exact absurd h List.not_mem_nil
  | succ fuel ih =>
    rw [Fd.splitWrite] at h
    split_ifs at h with hlt
    · cases List.mem_cons.1 h with
      | inl heq =>
        subst heq
        refine ⟨writeSize_fits _ _, ?_⟩
        rw [Nat.add_sub_cancel_left]
      | inr hmem => exact ih hmem
    · exact absurd h List.not_mem_nil

/-- More rounds of the loop change nothing. -/
theorem splitWrite_fuel (hr : r ≤ numAvail) (hfuel : numAvail ≤ r + fuel) (more : ℕ) :
    Fd.splitWrite offset buf numAvail (fuel + more) r = Fd.splitWrite offset buf numAvail fuel r := by
  induction fuel generalizing r with
  | zero =>
    rw [splitWrite_done (by omega), splitWrite_done (by omega)]
  | succ fuel ih =>
    rw [Nat.succ_add, Fd.splitWrite, Fd.splitWrite]
    split_ifs with hlt
    · obtain ⟨hpos, hle⟩ := writeSize_spec (offset + r) (Nat.sub_pos_of_lt hlt)
      dsimp only
      rw [ih (by omega) (by omega)]
    · rfl

end

/-- **A write is cut into operations that the chunk servers take**: they make up the part of it that fits into the
chunk, from left to right and without empty ones, each of them fits and carries its part of the data, and the loop
ends. -/
theorem splitWrite_tiles (offset : ℕ) (buf : List UInt8) (h : offset ≤ Chunk.CHUNKSIZE) (fuel : ℕ)
    (hfuel : min buf.length (Chunk.CHUNKSIZE - offset) ≤ fuel) :
    let numAvail := min buf.length (Chunk.CHUNKSIZE - offset)
    let ops := Fd.splitWrite offset buf numAvail fuel 0
    Lib.Tiles WritePrepareOp.offset WritePrepareOp.numBytes offset (offset + numAvail) ops ∧
      offset + numAvail ≤ Chunk.CHUNKSIZE ∧
      (∀ op ∈ ops, Fits op.offset op.numBytes ∧
        op.contentBuf = (buf.drop (op.offset - offset)).take op.numBytes ∧ op.contentBuf.length = op.numBytes) ∧
      ∀ more, Fd.splitWrite offset buf numAvail (fuel + more) 0 = ops := by
  have hfuel' : min buf.length (Chunk.CHUNKSIZE - offset) ≤ 0 + fuel := by rwa [Nat.zero_add]
  have htiles := @splitWrite_rest offset _ _ _ buf (Nat.zero_le _) hfuel'
  refine ⟨htiles, by omega, fun op hop => ?_, splitWrite_fuel (Nat.zero_le _) hfuel'⟩
  obtain ⟨hfits, hdata⟩ := mem_splitWrite hop
  have hmem := htiles.mem hop
  refine ⟨hfits, hdata, ?_⟩
  rw [hdata, List.length_take, List.length_drop]
  omega

theorem splitWrite_tiles_short :
    Lib.Tiles WritePrepareOp.offset WritePrepareOp.numBytes 65535 65538 (Fd.splitWrite 65535 [1, 2, 3] 3 3 0) :=
  (splitWrite_tiles 65535 [1, 2, 3] (by decide) 3 (by decide)).1

end Kfs.Client
