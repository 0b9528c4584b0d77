import Kfs.Client.Healthy

/-!
# Coherent descriptors

What a descriptor knows of its file: its position, the attributes of the chunks that it has seen, and the buffered
bytes.

* `chunkAt`: the chunk that the client takes for a chunk number;
* `content`: the bytes of a file, zero where it has none;
* `Fd.Coherent`, `Fd.Cached`;
* `IsChunkReadable_eq`, `ReadChunk_eq`, `seekTo_clean`: what one round of a read does with such a descriptor.
-/

namespace Kfs.Client

open Kfs.Lib

/-- The chunk that the client takes for the chunk number `k`. -/
def chunkAt (chunks : ℕ → Option Stored) (k : ℤ) : Option Stored := if k < 0 then none else chunks k.toNat

/-- The bytes of a file: zero in a missing chunk and behind the end of a chunk. -/
def content (chunks : ℕ → Option Stored) (q : ℕ) : UInt8 :=
  ((chunks (q / Chunk.CHUNKSIZE)).map fun c => c.data (q % Chunk.CHUNKSIZE)).getD 0

theorem chunkAt_nonneg {chunks : ℕ → Option Stored} {k : ℤ} {c : Stored} (h : chunkAt chunks k = some c) :
    0 ≤ k ∧ chunks k.toNat = some c := by
  unfold chunkAt at h
  split_ifs at h with hk
  exact ⟨not_lt.1 hk, h⟩

theorem toInt32_of_lt {n : ℕ} (h : n < 2 ^ 31) : toInt32 n = n := by
  have h' : n < 2147483648 := h
  have h₁ : -((2 ^ 32 : ℕ) / 2 : ℤ) ≤ n := by norm_num
  have h₂ : (n : ℤ) < ((2 ^ 32 : ℕ) + 1) / 2 := by norm_num; omega
  exact Int.bmod_eq_of_le h₁ h₂

theorem chunkAt_eq {chunks : ℕ → Option Stored} {k : ℤ} (h : 0 ≤ k) : chunkAt chunks k = chunks k.toNat :=
  if_neg (not_lt.2 h)

namespace Fd

variable {fd : Fd} {c : Stored}

/-- What the descriptor says of its position and of the chunks is right. -/
structure Coherent (fd : Fd) : Prop where
  chunkNum : fd.currPos.chunkNum = toInt32 (fd.currPos.fileOffset / Chunk.CHUNKSIZE)
  chunkOffset : fd.currPos.chunkOffset = fd.currPos.fileOffset % Chunk.CHUNKSIZE
  known : ∀ k chunk, fd.cattr k = some chunk → 0 ≤ k ∧ chunk.chunkId = k.toNat ∧ (fd.chunks k.toNat).isSome
  sized : fd.currPos.preferredServer → ∃ chunk c, fd.GetCurrChunk = some chunk ∧
    chunkAt fd.chunks fd.currPos.chunkNum = some c ∧ chunk.chunkSize = c.size
  bounded : ∀ n c, fd.chunks n = some c → c.size ≤ Chunk.CHUNKSIZE

/-- The buffer is a copy of a piece of a chunk. -/
structure Cached (fd : Fd) : Prop where
  clean : fd.buffer.dirty = false
  copied : 0 < fd.buffer.length → ∃ c, chunkAt fd.chunks fd.buffer.chunkno = some c ∧
    fd.buffer.start + fd.buffer.length ≤ c.size ∧
    ∀ i < fd.buffer.length, fd.buffer.buf i = c.data (fd.buffer.start + i)

/-- The descriptor with other attributes and a connection for its chunk. -/
def connect (fd : Fd) (cattr : ℤ → Option ChunkAttr) : Fd :=
  { fd with cattr := cattr, currPos := { fd.currPos with preferredServer := true } }

/-! ## Chunks -/

theorem Coherent.offset_lt (h : fd.Coherent) : fd.currPos.chunkOffset < Chunk.CHUNKSIZE := by
  rw [h.chunkOffset]
  exact Nat.mod_lt _ (by decide)

/-- The attributes of the current chunk, where they are known. -/
theorem Coherent.current (h : fd.Coherent) {chunk : ChunkAttr} (hcur : fd.GetCurrChunk = some chunk) :
    chunk.chunkId = fd.currPos.chunkNum.toNat ∧
      chunkAt fd.chunks fd.currPos.chunkNum = fd.chunks fd.currPos.chunkNum.toNat := by
  obtain ⟨hk, hid, -⟩ := h.known _ _ hcur
  exact ⟨hid, chunkAt_eq hk⟩

/-- A descriptor that has just been opened. -/
theorem coherent_opened {openMode : OpenMode} {fileSize : ℕ} {chunks : ℕ → Option Stored}
    (h : ∀ n c, chunks n = some c → c.size ≤ Chunk.CHUNKSIZE) :
    Coherent { openMode := openMode, fileSize := fileSize, chunks := chunks } ∧
      Cached { openMode := openMode, fileSize := fileSize, chunks := chunks } := by
  refine ⟨⟨show (0 : ℤ) = toInt32 (0 / Chunk.CHUNKSIZE) by decide, show 0 = 0 % Chunk.CHUNKSIZE by decide,
    fun k chunk hk => ?_,
    fun hpref => ?_, h⟩, rfl, fun hlen => ?_⟩
  · cases hk
  · cases hpref
  · exact absurd hlen (lt_irrefl 0)

/-- The connected descriptor is coherent when the attributes of its chunk say its size. -/
theorem Coherent.connected (h : fd.Coherent) {cattr : ℤ → Option ChunkAttr} {chunk : ChunkAttr}
    (hc : chunkAt fd.chunks fd.currPos.chunkNum = some c) (hcur : cattr fd.currPos.chunkNum = some chunk)
    (hid : chunk.chunkId = fd.currPos.chunkNum.toNat) (hsize : chunk.chunkSize = c.size)
    (hother : ∀ k, k ≠ fd.currPos.chunkNum → cattr k = fd.cattr k) : (fd.connect cattr).Coherent where
  chunkNum := h.chunkNum
  chunkOffset := h.chunkOffset
  known k attr hk := by
    rcases eq_or_ne k fd.currPos.chunkNum with rfl | hne
    · obtain ⟨hpos, hstored⟩ := chunkAt_nonneg hc
      obtain rfl : chunk = attr := Option.some.inj (hcur.symm.trans hk)
      exact ⟨hpos, hid, Option.isSome_of_eq_some hstored⟩
    · exact h.known k attr ((hother k hne).symm.trans hk)
  sized _ := ⟨chunk, c, hcur, hc, hsize⟩
  bounded := h.bounded

/-- `LocateChunk` finds the chunks that there are. -/
theorem LocateChunk_eq (h : fd.Coherent) (hc : chunkAt fd.chunks fd.currPos.chunkNum = some c) :
    ∃ cattr chunk, fd.LocateChunk = (true, { fd with cattr := cattr }) ∧ cattr fd.currPos.chunkNum = some chunk ∧
      chunk.chunkId = fd.currPos.chunkNum.toNat ∧ (∀ k, k ≠ fd.currPos.chunkNum → cattr k = fd.cattr k) ∧
      (fd.currPos.preferredServer → cattr = fd.cattr) := by
  obtain ⟨hpos, hstored⟩ := chunkAt_nonneg hc
  rw [LocateChunk]
  simp only [if_neg (not_lt.2 hpos)]
  cases hcur : fd.GetCurrChunk with
  | some chunk => exact ⟨fd.cattr, chunk, by simp, hcur, (h.known _ _ hcur).2.1, fun _ _ => rfl, fun _ => rfl⟩
  | none =>
    refine ⟨Function.update fd.cattr fd.currPos.chunkNum (some { chunkId := fd.currPos.chunkNum.toNat }), _, ?_,
      Function.update_self .., rfl, fun k hk => Function.update_of_ne hk .., fun hpref => ?_⟩
    · simp [hstored, setCurrChunk]
    · obtain ⟨chunk, _, hsome, -⟩ := h.sized hpref
      cases hsome.symm.trans hcur

/-- A missing chunk is not found. -/
theorem LocateChunk_none (h : fd.Coherent) (hc : chunkAt fd.chunks fd.currPos.chunkNum = none) :
    fd.LocateChunk = (false, fd) := by
  rw [LocateChunk]
  split_ifs with hneg hcur hsome
  · rfl
  · obtain ⟨chunk, hchunk⟩ := Option.isSome_iff_exists.1 hcur
    have hnone := (chunkAt_eq (not_lt.1 hneg)).symm.trans hc
    have hstored := (h.known _ _ hchunk).2.2
    rw [hnone] at hstored
    cases hstored
  · have hnone := (chunkAt_eq (not_lt.1 hneg)).symm.trans hc
    rw [hnone] at hsome
    cases hsome
  · rfl

/-- Opening a chunk whose attributes are known makes its size known. -/
theorem OpenChunk_eq {chunk : ChunkAttr} (hcur : fd.GetCurrChunk = some chunk)
    (hc : fd.chunks chunk.chunkId = some c) : fd.OpenChunk =
      fd.connect (Function.update fd.cattr fd.currPos.chunkNum (some { chunk with chunkSize := c.size })) := by
  have hcur' : fd.cattr fd.currPos.chunkNum = some chunk := hcur
  simp [OpenChunk, SizeChunk, GetCurrChunk, hcur', hc, setCurrChunk, connect]

/-- A chunk that there is is found and opened. -/
theorem IsChunkReadable_eq (h : fd.Coherent) (hc : chunkAt fd.chunks fd.currPos.chunkNum = some c) :
    ∃ cattr, fd.IsChunkReadable = (true, fd.connect cattr) ∧ (fd.connect cattr).Coherent := by
  obtain ⟨hpos, hstored⟩ := chunkAt_nonneg hc
  obtain ⟨cattr, chunk, hlocate, hcur, hid, hother, hsame⟩ := LocateChunk_eq h hc
  rw [IsChunkReadable, hlocate]
  by_cases hpref : fd.currPos.preferredServer
  · obtain rfl := hsame hpref
    obtain ⟨attr, c', hattr, hc', hsize⟩ := h.sized hpref
    obtain rfl : chunk = attr := Option.some.inj (hcur.symm.trans hattr)
    obtain rfl : c = c' := Option.some.inj (hc.symm.trans hc')
    have heq : fd = fd.connect fd.cattr := by simp [connect, ← hpref]
    refine ⟨fd.cattr, ?_, h.connected hc hcur hid hsize hother⟩
    simp only [if_true, hpref]
    rw [← heq]
  · have hopen := @OpenChunk_eq { fd with cattr := cattr } c chunk hcur (by rw [hid]; exact hstored)
    refine ⟨Function.update cattr fd.currPos.chunkNum (some { chunk with chunkSize := c.size }), ?_,
      h.connected hc (Function.update_self ..) hid rfl fun k hk => ?_⟩
    · simp only [if_true, hpref, hopen]
      simp [connect]
    · rw [Function.update_of_ne hk, hother k hk]

theorem IsChunkReadable_none (h : fd.Coherent) (hc : chunkAt fd.chunks fd.currPos.chunkNum = none) :
    fd.IsChunkReadable = (false, fd) := by
  simp [IsChunkReadable, LocateChunk_none h hc]

/-! ## One round of a read -/

theorem Cached.CopyFromChunkBuf_eq (h : fd.Cached) (hc : chunkAt fd.chunks fd.currPos.chunkNum = some c) (n : ℕ) :
    fd.currPos.chunkOffset + (fd.CopyFromChunkBuf n).length ≤ c.size ∧
      fd.CopyFromChunkBuf n = load c.data fd.currPos.chunkOffset (fd.CopyFromChunkBuf n).length ∨
    fd.CopyFromChunkBuf n = [] := by
  rw [CopyFromChunkBuf]
  split_ifs with hmiss
  · exact Or.inr rfl
  · push Not at hmiss
    obtain ⟨hnum, hstart, hend⟩ := hmiss
    obtain ⟨c', hc', hle, hbuf⟩ := h.copied (by omega)
    obtain rfl : c = c' := by
      rw [← hnum, hc] at hc'
      exact Option.some.inj hc'
    refine Or.inl ⟨by rw [length_load]; omega, ?_⟩
    rw [length_load]
    refine List.map_congr_left fun i hi => ?_
    have hi := List.mem_range.1 hi
    rw [hbuf _ (by omega)]
    congr 1
    omega

theorem CopyFromChunkBuf_length (n : ℕ) : (fd.CopyFromChunkBuf n).length ≤ n := by
  rw [CopyFromChunkBuf]
  split_ifs
  · exact Nat.zero_le _
  · rw [length_load]
    exact min_le_right _ _

/-- A read from the chunk server brings in the bytes that the chunk has. -/
theorem readFromServer_eq (h : fd.Coherent) (hpref : fd.currPos.preferredServer = true)
    (hc : chunkAt fd.chunks fd.currPos.chunkNum = some c) (hlt : fd.currPos.chunkOffset < c.size) (buf : ℕ → UInt8)
    (n : ℕ) : fd.readFromServer buf n = some (((min (c.size - fd.currPos.chunkOffset) n : ℕ) : ℤ),
      store buf 0 (load c.data fd.currPos.chunkOffset (min (c.size - fd.currPos.chunkOffset) n))) := by
  obtain ⟨chunk, c', hcur, hc', hsize⟩ := h.sized hpref
  obtain rfl : c = c' := Option.some.inj (hc.symm.trans hc')
  obtain ⟨hid, -⟩ := h.current hcur
  have hstored : fd.chunks chunk.chunkId = some c := by
    rw [hid]
    exact (chunkAt_nonneg hc).2
  obtain ⟨r, hr, hnum, hbuf⟩ := @ReadFromServer_reader fd.currPos.chunkOffset n buf c READ_WINDOW hlt
  rw [readFromServer, hcur]
  simp only [hstored, hpref, hsize, hr, Option.map_some, hnum, hbuf]

theorem ZeroFillBuf_eq (h : fd.Coherent) (hpref : fd.currPos.preferredServer = true)
    (hc : chunkAt fd.chunks fd.currPos.chunkNum = some c) (heof : fd.currPos.fileOffset ≤ fd.fileSize) (n : ℕ) :
    fd.ZeroFillBuf n = some (if fd.currPos.chunkOffset < c.size then 0
      else min (min (Chunk.CHUNKSIZE - c.size) (fd.fileSize - fd.currPos.fileOffset)) n) := by
  obtain ⟨chunk, c', hcur, hc', hsize⟩ := h.sized hpref
  obtain rfl : c = c' := Option.some.inj (hc.symm.trans hc')
  have hle := h.bounded _ _ (chunkAt_nonneg hc).2
  rw [ZeroFillBuf, hcur]
  simp only [hsize, heof, hle, and_self, if_true]
  split_ifs <;> rfl

/-- A round of a read brings in bytes that the chunk has, or zeros when it has no more. -/
theorem ReadChunk_eq (h : fd.Coherent) (hcached : fd.Cached) (hpref : fd.currPos.preferredServer = true)
    (hc : chunkAt fd.chunks fd.currPos.chunkNum = some c) (heof : fd.currPos.fileOffset < fd.fileSize)
    (buf : ℕ → UInt8) {n : ℕ} (hn : 0 < n) : ∃ bytes b, fd.ReadChunk buf n = some (bytes, { fd with buffer := b }) ∧
      Cached { fd with buffer := b } ∧ bytes ≠ [] ∧ bytes.length ≤ n ∧
      (fd.currPos.chunkOffset + bytes.length ≤ c.size ∧ bytes = load c.data fd.currPos.chunkOffset bytes.length ∨
        c.size ≤ fd.currPos.chunkOffset ∧ bytes =
          List.replicate (min (min (Chunk.CHUNKSIZE - c.size) (fd.fileSize - fd.currPos.fileOffset)) n) 0) := by
  rw [ReadChunk, if_pos heof]
  by_cases hcopy : fd.CopyFromChunkBuf n ≠ []
  · -- from the buffer
    rw [if_pos hcopy]
    refine ⟨_, fd.buffer, rfl, hcached, hcopy, CopyFromChunkBuf_length n, Or.inl ?_⟩
    exact (hcached.CopyFromChunkBuf_eq hc n).resolve_right hcopy
  rw [if_neg hcopy, ZeroFillBuf_eq h hpref hc heof.le]
  by_cases hlt : fd.currPos.chunkOffset < c.size
  · simp only [if_pos hlt, lt_irrefl, if_false]
    by_cases hsmall : n < BUF_SIZE
    · -- through the buffer
      rw [if_pos hsmall, readFromServer_eq h hpref hc hlt]
      set m := min (c.size - fd.currPos.chunkOffset) BUF_SIZE with hm
      have hBUF : 0 < BUF_SIZE := by decide
      have hpos : 0 < m := by omega
      set b : ChunkBuffer := { fd.buffer with
        chunkno := fd.currPos.chunkNum, start := fd.currPos.chunkOffset, length := m,
        buf := store fd.buffer.buf 0 (load c.data fd.currPos.chunkOffset m) } with hb
      have hb' : Cached { fd with buffer := b } := by
        refine ⟨hcached.clean, fun _ => ⟨c, hc, ?_, fun i hi => ?_⟩⟩
        · show fd.currPos.chunkOffset + m ≤ c.size
          omega
        · show store fd.buffer.buf 0 (load c.data fd.currPos.chunkOffset m) i = _
          rw [store_load (Nat.zero_le i) (by simpa using hi), Nat.sub_zero]
      have hlen : (CopyFromChunkBuf { fd with buffer := b } n).length = min m n := by
        have hin : ¬ (fd.currPos.chunkNum ≠ b.chunkno ∨ fd.currPos.chunkOffset < b.start ∨
            b.start + b.length ≤ fd.currPos.chunkOffset) := by
          simp only [hb]
          omega
        rw [CopyFromChunkBuf, if_neg hin, length_load]
        simp only [hb, Nat.sub_self, Nat.sub_zero]
      have hne : CopyFromChunkBuf { fd with buffer := b } n ≠ [] := by
        rw [← List.length_pos_iff, hlen]
        omega
      refine ⟨CopyFromChunkBuf { fd with buffer := b } n, b, ?_, hb', hne, CopyFromChunkBuf_length n, Or.inl ?_⟩
      · simp only [Int.natCast_pos.2 hpos, if_true, Int.toNat_natCast, hb]
      · exact (hb'.CopyFromChunkBuf_eq hc n).resolve_right hne
    · -- past the buffer
      rw [if_neg hsmall, readFromServer_eq h hpref hc hlt]
      set m := min (c.size - fd.currPos.chunkOffset) n with hm
      have hload : load (store buf 0 (load c.data fd.currPos.chunkOffset m)) 0 m =
          load c.data fd.currPos.chunkOffset m := by
        refine List.map_congr_left fun i hi => ?_
        rw [Nat.zero_add, store_load (Nat.zero_le i) (by simpa using hi), Nat.sub_zero]
      refine ⟨load c.data fd.currPos.chunkOffset m, fd.buffer, ?_, hcached, ?_, ?_, Or.inl ?_⟩
      · simp only [not_lt.2 (Int.natCast_nonneg m), if_false, Int.toNat_natCast, hload]
      · rw [← List.length_pos_iff, length_load]
        omega
      · rw [length_load]
        omega
      · rw [length_load]
        exact ⟨by omega, rfl⟩
  · -- past the end of the chunk
    have hoff := h.offset_lt
    have hpos : 0 < min (min (Chunk.CHUNKSIZE - c.size) (fd.fileSize - fd.currPos.fileOffset)) n := by omega
    simp only [if_neg hlt, if_pos hpos]
    refine ⟨_, fd.buffer, rfl, hcached, ?_, ?_, Or.inr ⟨not_lt.1 hlt, rfl⟩⟩
    · rw [← List.length_pos_iff, List.length_replicate]
      exact hpos
    · rw [List.length_replicate]
      exact min_le_right _ _

/-! ## Seeks -/

theorem Seek_cur (fd : Fd) (n : ℕ) : fd.Seek n .SEEK_CUR = fd.seekTo (fd.currPos.fileOffset + n) := by
  rw [Seek]
  simp only [← Nat.cast_add, not_lt.2 (Int.natCast_nonneg _), if_false, Int.toNat_natCast]

/-- The descriptor at another position. -/
def moved (fd : Fd) (newOff : ℕ) : Fd :=
  { fd with currPos := ⟨newOff, toInt32 (newOff / Chunk.CHUNKSIZE), newOff % Chunk.CHUNKSIZE,
      fd.currPos.preferredServer && fd.currPos.chunkNum = toInt32 (newOff / Chunk.CHUNKSIZE)⟩ }

theorem moved_chunkNum (newOff : ℕ) : (fd.moved newOff).currPos.chunkNum = toInt32 (newOff / Chunk.CHUNKSIZE) := by
  rw [moved]

theorem seekTo_clean (hclean : fd.buffer.dirty = false) (newOff : ℕ) : fd.seekTo newOff = some (fd.moved newOff) := by
  rw [seekTo]
  simp only
  split_ifs with hne
  · simp [FlushBuffer, hclean, moved, hne]
  · push Not at hne
    simp [moved, ← hne]

theorem Coherent.moved (h : fd.Coherent) (newOff : ℕ) : (fd.moved newOff).Coherent := by
  refine ⟨moved_chunkNum newOff, by rw [Fd.moved], h.known, fun hpref => ?_, h.bounded⟩
  have hboth : (fd.currPos.preferredServer && fd.currPos.chunkNum = toInt32 (newOff / Chunk.CHUNKSIZE)) = true := hpref
  simp only [Bool.and_eq_true, decide_eq_true_eq] at hboth
  obtain ⟨hpref, hsame⟩ := hboth
  obtain ⟨chunk, c, hcur, hc, hsize⟩ := h.sized hpref
  refine ⟨chunk, c, ?_, ?_, hsize⟩
  · rw [GetCurrChunk, hsame] at hcur
    simp only [GetCurrChunk, Fd.moved]
    exact hcur
  · rw [hsame] at hc
    simp only [Fd.moved]
    exact hc

end Fd

end Kfs.Client
