import Mathlib.Data.List.TakeDrop
import Mathlib.Tactic.Linarith

/-!
# Block checksums

`Checksum.cc` and the buffers that it runs over. The data of a chunk is checked in blocks of
`CHECKSUM_BLOCKSIZE` bytes.

* `Zlib`: what the library promises of `adler32`; `ComputeBlockChecksum`;
* `IOBuffer`: a list of pieces; `ComputeChecksums` walks over the pieces and the blocks at the same time;
* **`ComputeChecksums_eq`**: the pieces do not matter, the result has the checksum of each block.
-/

namespace Kfs.Chunk

def CHECKSUM_BLOCKSIZE : ℕ := 65536
def CHUNKSIZE : ℕ := 67108864
def MAX_CHUNK_CHECKSUM_BLOCKS : ℕ := 1024

def OffsetToChecksumBlockNum (offset : ℕ) : ℕ := offset / CHECKSUM_BLOCKSIZE

def OffsetToChecksumBlockStart (offset : ℕ) : ℕ := offset / CHECKSUM_BLOCKSIZE * CHECKSUM_BLOCKSIZE

/-- What the library documents of `adler32`, which is not in the source: a checksum is continued over some bytes, and
the low half of the word adds them up. -/
class Zlib where
  adler32 : UInt32 → List UInt8 → UInt32
  adler32_nil (adler : UInt32) : adler32 adler [] = adler
  adler32_append (adler : UInt32) (x y : List UInt8) : adler32 adler (x ++ y) = adler32 (adler32 adler x) y
  adler32_low (adler : UInt32) (b : UInt8) : adler.toNat % 65536 < 65521 →
    (adler32 adler [b]).toNat % 65536 = (adler.toNat % 65536 + b.toNat) % 65521

export Zlib (adler32 adler32_nil adler32_append adler32_low)

/-- The documented step of `adler32`: the high half of the word adds up the low halves. -/
def adlerStep (adler : UInt32) (b : UInt8) : UInt32 :=
  let s1 := (adler.toNat % 65536 + b.toNat) % 65521
  let s2 := (adler.toNat / 65536 + s1) % 65521
  UInt32.ofNat (s2 * 65536 + s1)

/-- The function that the chunk server and the client as a whole run with. -/
instance : Zlib where
  adler32 adler buf := buf.foldl adlerStep adler
  adler32_nil _ := rfl
  adler32_append _ _ _ := List.foldl_append
  adler32_low adler b _ := by
    rw [List.foldl_cons, List.foldl_nil, adlerStep, UInt32.toNat_ofNat']
    omega

section

variable [Zlib]

/-- `ComputeBlockChecksum`, from the checksum of no bytes at all. -/
def ComputeBlockChecksum (buf : List UInt8) : UInt32 := adler32 1 buf

/-- The loop of `ComputeBlockChecksum` over the pieces of a buffer. -/
def blockChecksumLoop (res : UInt32) (len : ℕ) : List (List UInt8) → UInt32
  | [] => res
  | blk :: iter =>
    if 0 < len then
      let tlen := min blk.length len
      if tlen = 0 then blockChecksumLoop res len iter
      else blockChecksumLoop (adler32 res (blk.take tlen)) (len - tlen) iter
    else res

/-- Zeros leave the low half of the word. -/
theorem adler32_zeros (s : UInt32) (n : ℕ) (h : s.toNat % 65536 < 65521) :
    (adler32 s (List.replicate n 0)).toNat % 65536 = s.toNat % 65536 := by
  induction n generalizing s with
  | zero => rw [List.replicate_zero, adler32_nil]
  | succ n ih =>
    have hlow := adler32_low s 0 h
    have hzero : (0 : UInt8).toNat = 0 := rfl
    rw [hzero, Nat.add_zero, Nat.mod_eq_of_lt h] at hlow
    rw [List.replicate_succ, ← List.singleton_append, adler32_append, ih _ (by omega), hlow]

/-- The pieces of an `IOBuffer`, each with the bytes that have not been consumed. -/
abbrev IOBuffer := List (List UInt8)

/-- The inner loop of `ComputeChecksums`: complete the current block, of which `currLen` bytes are done. -/
def blockLoop (currLen : ℕ) (res : UInt32) (len : ℕ) : IOBuffer → UInt32 × ℕ × IOBuffer
  | [] => (res, len, [])
  | buf :: iter =>
    if currLen < CHECKSUM_BLOCKSIZE then
      let navail := min (min buf.length len) (CHECKSUM_BLOCKSIZE - currLen)
      if navail = 0 then blockLoop currLen res len iter
      else blockLoop (currLen + navail) (adler32 res (buf.take navail)) (len - navail) (buf.drop navail :: iter)
    else (res, len, buf :: iter)
  termination_by iter => iter.flatten.length + iter.length
  decreasing_by
    all_goals
      simp only [List.flatten_cons, List.length_append, List.length_drop, List.length_cons]
      omega

/-- The pieces and bytes that are left. -/
def IOBuffer.size (iter : IOBuffer) : ℕ := iter.flatten.length + iter.length

theorem blockLoop_size_le {currLen len : ℕ} {res : UInt32} {iter : IOBuffer} :
    IOBuffer.size (blockLoop currLen res len iter).2.2 ≤ IOBuffer.size iter := by
  fun_induction blockLoop currLen res len iter with
  | case1 => exact le_rfl
  | case2 currLen res len buf iter _ navail _ ih =>
    refine ih.trans ?_
    simp only [IOBuffer.size, List.flatten_cons, List.length_append, List.length_cons]
    omega
  | case3 currLen res len buf iter _ navail _ ih =>
    refine ih.trans ?_
    simp only [IOBuffer.size, List.flatten_cons, List.length_append, List.length_drop, List.length_cons]
    omega
  | case4 => exact le_rfl

/-- A block takes at least one byte or piece. -/
theorem blockLoop_size_lt {len : ℕ} {res : UInt32} {buf : List UInt8} {iter : IOBuffer} :
    IOBuffer.size (blockLoop 0 res len (buf :: iter)).2.2 < IOBuffer.size (buf :: iter) := by
  rw [blockLoop, if_pos (show 0 < CHECKSUM_BLOCKSIZE by decide)]
  dsimp only
  split_ifs with h
  · refine blockLoop_size_le.trans_lt ?_
    simp only [IOBuffer.size, List.flatten_cons, List.length_append, List.length_cons]
    omega
  · refine blockLoop_size_le.trans_lt ?_
    simp only [IOBuffer.size, List.flatten_cons, List.length_append, List.length_drop, List.length_cons]
    omega

/-- The outer loop of `ComputeChecksums`. -/
def checksumLoop (len : ℕ) : IOBuffer → List UInt32
  | [] => []
  | buf :: iter =>
    if 0 < len then
      let r := blockLoop 0 1 len (buf :: iter)
      r.1 :: checksumLoop r.2.1 r.2.2
    else []
  termination_by iter => IOBuffer.size iter
  decreasing_by exact blockLoop_size_lt

/-- The checksums of the blocks of a buffer; `none` when there is less than a block. -/
def ComputeChecksums (data : IOBuffer) (len : ℕ) : Option (List UInt32) :=
  if len ≥ CHECKSUM_BLOCKSIZE then some (checksumLoop len data) else none

/-! ## The blocks -/

/-- The data cut into blocks. -/
def blocks (l : List UInt8) : List (List UInt8) :=
  match l with
  | [] => []
  | b :: l => (b :: l).take CHECKSUM_BLOCKSIZE :: blocks ((b :: l).drop CHECKSUM_BLOCKSIZE)
  termination_by l.length
  decreasing_by
    simp only [List.length_drop, List.length_cons, CHECKSUM_BLOCKSIZE]
    omega

omit [Zlib] in
theorem blocks_getElem? {l : List UInt8} {i : ℕ} : (blocks l)[i]? =
    if i * CHECKSUM_BLOCKSIZE < l.length then
      some ((l.drop (i * CHECKSUM_BLOCKSIZE)).take CHECKSUM_BLOCKSIZE) else none := by
  fun_induction blocks l generalizing i with
  | case1 => simp
  | case2 b l ih =>
    cases i with
    | zero => simp
    | succ i =>
      rw [List.getElem?_cons_succ, ih, List.drop_drop, List.length_drop]
      have hadd : CHECKSUM_BLOCKSIZE + i * CHECKSUM_BLOCKSIZE = (i + 1) * CHECKSUM_BLOCKSIZE := by
        rw [Nat.succ_mul, Nat.add_comm]
      have hiff : i * CHECKSUM_BLOCKSIZE < (b :: l).length - CHECKSUM_BLOCKSIZE ↔
          (i + 1) * CHECKSUM_BLOCKSIZE < (b :: l).length := by
        rw [Nat.succ_mul]
        omega
      simp only [hiff, hadd]

/-- The inner loop takes the rest of the block, of the first `len` bytes. -/
theorem blockLoop_take {currLen len : ℕ} {res : UInt32} {iter : IOBuffer} (hlen : len ≤ iter.flatten.length) :
    (blockLoop currLen res len iter).1 =
        adler32 res ((iter.flatten.take len).take (CHECKSUM_BLOCKSIZE - currLen)) ∧
      (blockLoop currLen res len iter).2.2.flatten.take (blockLoop currLen res len iter).2.1 =
        (iter.flatten.take len).drop (CHECKSUM_BLOCKSIZE - currLen) ∧
      (blockLoop currLen res len iter).2.1 ≤ (blockLoop currLen res len iter).2.2.flatten.length := by
  fun_induction blockLoop currLen res len iter with
  | case1 => simp_all [adler32_nil]
  | case2 currLen res len buf iter hc navail h0 ih =>
    -- the piece is empty, or there is nothing left to do
    have hsame : (buf :: iter).flatten.take len = iter.flatten.take len := by
      have hmin : buf.length = 0 ∨ len = 0 := by omega
      cases hmin with
      | inl hb => rw [List.eq_nil_of_length_eq_zero hb, List.flatten_cons, List.nil_append]
      | inr hl => rw [hl, List.take_zero, List.take_zero]
    rw [hsame]
    refine ih ?_
    rw [List.flatten_cons, List.length_append] at hlen
    omega
  | case3 currLen res len buf iter hc navail h0 ih =>
    have hn : navail ≤ buf.length ∧ navail ≤ CHECKSUM_BLOCKSIZE - currLen ∧ navail ≤ len := by omega
    obtain ⟨ih₁, ih₂, ih₃⟩ := ih (by
      rw [List.flatten_cons, List.length_append] at hlen ⊢
      rw [List.length_drop]
      omega)
    have hsplit : (buf :: iter).flatten.take len =
        buf.take navail ++ (buf.drop navail :: iter).flatten.take (len - navail) := by
      rw [List.flatten_cons, List.flatten_cons]
      nth_rewrite 1 [← List.take_append_drop navail buf]
      rw [List.append_assoc, List.take_append, List.length_take_of_le hn.1,
        List.take_of_length_le (i := len) (by rw [List.length_take]; omega)]
    have hlt : (buf.take navail).length = navail := List.length_take_of_le hn.1
    have hsub : CHECKSUM_BLOCKSIZE - (currLen + navail) = CHECKSUM_BLOCKSIZE - currLen - navail := by omega
    refine ⟨?_, ?_, ih₃⟩
    · rw [ih₁, ← adler32_append, hsplit, List.take_append, hlt, hsub,
        List.take_of_length_le (i := CHECKSUM_BLOCKSIZE - currLen) (by omega)]
    · rw [ih₂, hsplit, List.drop_append, hlt, hsub,
        List.drop_eq_nil_of_le (i := CHECKSUM_BLOCKSIZE - currLen) (by omega), List.nil_append]
  | case4 currLen res len buf iter hc =>
    have h0 : CHECKSUM_BLOCKSIZE - currLen = 0 := by omega
    rw [h0, List.take_zero, List.drop_zero, adler32_nil]
    exact ⟨rfl, rfl, hlen⟩

theorem checksumLoop_take {len : ℕ} {iter : IOBuffer} (hlen : len ≤ iter.flatten.length) :
    checksumLoop len iter = (blocks (iter.flatten.take len)).map ComputeBlockChecksum := by
  fun_induction checksumLoop len iter with
  | case1 => simp [blocks]
  | case2 len buf iter hpos r ih =>
    obtain ⟨h₁, h₂, h₃⟩ := @blockLoop_take _ 0 _ 1 _ hlen
    rw [ih h₃]
    have hne : (buf :: iter).flatten.take len ≠ [] := by
      intro he
      have := congrArg List.length he
      rw [List.length_take, List.length_nil] at this
      omega
    obtain ⟨b, l, hbl⟩ := List.exists_cons_of_ne_nil hne
    have hr₁ : r.1 = ComputeBlockChecksum ((b :: l).take CHECKSUM_BLOCKSIZE) := by
      rw [← hbl]
      exact h₁
    have hr₂ : r.2.2.flatten.take r.2.1 = (b :: l).drop CHECKSUM_BLOCKSIZE := by
      rw [← hbl]
      exact h₂
    rw [hr₁, hr₂, hbl, blocks, List.map_cons]
  | case3 len buf iter hpos =>
    have h0 : len = 0 := by omega
    simp [h0, blocks]

/-- The pieces do not matter for the checksums of the blocks of the first bytes of a buffer. -/
theorem ComputeChecksums_take {data : IOBuffer} {len : ℕ} (h : CHECKSUM_BLOCKSIZE ≤ len)
    (hlen : len ≤ data.flatten.length) :
    ComputeChecksums data len = some ((blocks (data.flatten.take len)).map ComputeBlockChecksum) := by
  rw [ComputeChecksums, if_pos h, checksumLoop_take hlen]

/-- **`ComputeChecksums` of a whole buffer has the checksum of each block of its bytes.** -/
theorem ComputeChecksums_eq {data : IOBuffer} (h : CHECKSUM_BLOCKSIZE ≤ data.flatten.length) :
    ComputeChecksums data data.flatten.length = some ((blocks data.flatten).map ComputeBlockChecksum) := by
  rw [ComputeChecksums_take h le_rfl, List.take_length]

theorem blockChecksumLoop_eq {res : UInt32} {len : ℕ} {iter : IOBuffer} :
    blockChecksumLoop res len iter = adler32 res (iter.flatten.take len) := by
  fun_induction blockChecksumLoop res len iter with
  | case1 => rw [List.flatten_nil, List.take_nil, adler32_nil]
  | case2 res len blk iter hpos tlen h0 ih =>
    have hblk : blk = [] := List.eq_nil_of_length_eq_zero (by omega)
    rw [ih, hblk, List.flatten_cons, List.nil_append]
  | case3 res len blk iter hpos tlen h0 ih =>
    have htake : blk.take tlen = blk.take len := List.take_eq_take_iff.2 (by omega)
    have hrest : len - tlen = len - blk.length := by omega
    rw [ih, ← adler32_append, List.flatten_cons, List.take_append, htake, hrest]
  | case4 res len blk iter hpos =>
    rw [Nat.eq_zero_of_not_pos hpos, List.take_zero, adler32_nil]

/-- The bytes of block `i`. -/
def slice (l : List UInt8) (i : ℕ) : List UInt8 := (l.drop (i * CHECKSUM_BLOCKSIZE)).take CHECKSUM_BLOCKSIZE

omit [Zlib] in
theorem blocks_eq_slices {l : List UInt8} :
    blocks l = (List.range ((l.length + CHECKSUM_BLOCKSIZE - 1) / CHECKSUM_BLOCKSIZE)).map (slice l) := by
  refine List.ext_getElem? fun i => ?_
  rw [blocks_getElem?, List.getElem?_map]
  have hiff : i * CHECKSUM_BLOCKSIZE < l.length ↔ i < (l.length + CHECKSUM_BLOCKSIZE - 1) / CHECKSUM_BLOCKSIZE := by
    simp only [CHECKSUM_BLOCKSIZE]
    omega
  by_cases h : i * CHECKSUM_BLOCKSIZE < l.length
  · rw [if_pos h, List.getElem?_range (hiff.1 h)]
    rfl
  · rw [if_neg h, List.getElem?_eq_none (by rw [List.length_range]; exact not_lt.1 (mt hiff.2 h))]
    rfl

/-- **The checksums of a buffer are those of the slices of its first bytes**, in whatever pieces the bytes come; and the
checksum of the buffer is that of its first bytes. -/
theorem ComputeChecksums_slices (data : IOBuffer) (len : ℕ) (h : CHECKSUM_BLOCKSIZE ≤ len)
    (hlen : len ≤ data.flatten.length) :
    ComputeChecksums data len = some ((List.range ((len + CHECKSUM_BLOCKSIZE - 1) / CHECKSUM_BLOCKSIZE)).map fun i =>
        ComputeBlockChecksum (slice (data.flatten.take len) i)) ∧
      ∀ n, blockChecksumLoop 1 n data = ComputeBlockChecksum (data.flatten.take n) := by
  refine ⟨?_, fun n => blockChecksumLoop_eq⟩
  rw [ComputeChecksums_take h hlen, blocks_eq_slices, List.map_map, List.length_take_of_le hlen]
  rfl

end

/-- The last block is not whole, and one of the pieces is empty. -/
theorem ComputeChecksums_slices_pieces :
    ComputeChecksums [List.replicate CHECKSUM_BLOCKSIZE 1, [], [2, 3]] (CHECKSUM_BLOCKSIZE + 1) =
      some [ComputeBlockChecksum (List.replicate CHECKSUM_BLOCKSIZE 1), ComputeBlockChecksum [2]] := by
  obtain ⟨ones, hones⟩ : ∃ ones : List UInt8, ones = List.replicate CHECKSUM_BLOCKSIZE 1 := ⟨_, rfl⟩
  have hlen : ones.length = CHECKSUM_BLOCKSIZE := by rw [hones, List.length_replicate]
  have hflat : ([ones, [], [2, 3]] : IOBuffer).flatten = ones ++ [2, 3] := rfl
  have hall : CHECKSUM_BLOCKSIZE + 1 ≤ ([ones, [], [2, 3]] : IOBuffer).flatten.length := by
    rw [hflat, List.length_append, hlen]
    exact Nat.add_le_add_left (by decide) _
  have htake : (ones ++ [2, 3]).take (CHECKSUM_BLOCKSIZE + 1) = ones ++ [2] := by
    rw [← hlen, List.take_length_add_append]
    rfl
  have htwo : (CHECKSUM_BLOCKSIZE + 1 + CHECKSUM_BLOCKSIZE - 1) / CHECKSUM_BLOCKSIZE = 2 := by
    norm_num [CHECKSUM_BLOCKSIZE]
  have hfirst : slice (ones ++ [2]) 0 = ones := by
    rw [slice, Nat.zero_mul, List.drop_zero, ← hlen, List.take_left]
  have hlast : slice (ones ++ [2]) 1 = [2] := by
    rw [slice, Nat.one_mul, ← hlen, List.drop_left, hlen]
    rfl
  rw [← hones, (ComputeChecksums_slices [ones, [], [2, 3]] _ (Nat.le_succ _) hall).1, hflat, htake, htwo]
  change some [ComputeBlockChecksum (slice (ones ++ [2]) 0), ComputeBlockChecksum (slice (ones ++ [2]) 1)] = _
  rw [hfirst, hlast]

end Kfs.Chunk
