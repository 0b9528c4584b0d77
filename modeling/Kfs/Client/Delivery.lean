import Kfs.Client.Descriptor

/-!
# What the writes of a descriptor leave in the file

Every run of `Write`, `Seek` and `Sync` on one descriptor against an ordinary file. The bytes written so far, in order,
are those that have been sent to the chunk servers followed by those in the buffer.

* `PlainFile`: the ordinary file;
* `Core`: what has been sent is in the chunks; `Holds`: the rest is in the buffer;
* `writeRound_holds`, `seekTo_holds`, `call_holds`: what one call preserves;
* **`run_delivers`**: after a run of safe calls, a final `Sync` leaves the bytes of the ordinary file.
-/

namespace Kfs.Client

open Kfs.Lib

/-! ## Chunks that are written -/

theorem content_write {chunks : ℕ → Option Stored} {c : Stored} {k offset : ℕ} {d : List UInt8}
    (hc : chunks k = some c) (hle : offset + d.length ≤ Chunk.CHUNKSIZE) :
    content (Function.update chunks k (some (c.write offset d))) =
      store (content chunks) (k * Chunk.CHUNKSIZE + offset) d := by
  funext q
  rcases eq_or_ne (q / Chunk.CHUNKSIZE) k with rfl | hk
  · have hq : q / Chunk.CHUNKSIZE * Chunk.CHUNKSIZE + q % Chunk.CHUNKSIZE = q := Nat.div_add_mod' q Chunk.CHUNKSIZE
    have hdata : content chunks q = c.data (q % Chunk.CHUNKSIZE) := by rw [content, hc]; rfl
    have hiff : q / Chunk.CHUNKSIZE * Chunk.CHUNKSIZE + offset ≤ q ↔ offset ≤ q % Chunk.CHUNKSIZE := by omega
    have hsub : q - (q / Chunk.CHUNKSIZE * Chunk.CHUNKSIZE + offset) = q % Chunk.CHUNKSIZE - offset := by omega
    rw [content, Function.update_self]
    simp only [Option.map_some, Option.getD_some, Stored.write, store, hdata, hiff, hsub]
  · rw [content, Function.update_of_ne hk]
    rcases Nat.lt_or_gt_of_ne hk with h | h
    · rw [store_of_lt]
      · rfl
      · simp only [Chunk.CHUNKSIZE] at h ⊢
        omega
    · rw [store_of_ge]
      · rfl
      · simp only [Chunk.CHUNKSIZE] at h hle ⊢
        omega

/-- A chunk that has been allocated is a hole still. -/
theorem content_empty {chunks : ℕ → Option Stored} {k : ℕ} (hc : chunks k = none) :
    content (Function.update chunks k (some .empty)) = content chunks := by
  funext q
  rcases eq_or_ne (q / Chunk.CHUNKSIZE) k with rfl | hk
  · rw [content, content, Function.update_self, hc]
    rfl
  · rw [content, content, Function.update_of_ne hk]

namespace Fd

variable {fd fd' : Fd} {c : Stored} {chunk : ChunkAttr} {initial : ℕ → UInt8} {sent : List (ℕ × UInt8)} {d : List UInt8}
  {offset : ℕ}

/-- The stores `sent` have been applied to the chunks of the file. -/
structure Core (initial : ℕ → UInt8) (sent : List (ℕ × UInt8)) (fd : Fd) : Prop where
  coherent : fd.Coherent
  low : fd.currPos.fileOffset < 2 ^ 31 * Chunk.CHUNKSIZE
  within : ∀ n c, fd.chunks n = some c → 0 < c.size → n * Chunk.CHUNKSIZE + c.size ≤ fd.fileSize
  content : content fd.chunks = overwrite initial sent

theorem Core.chunkNum_eq (h : Core initial sent fd) :
    fd.currPos.chunkNum = (fd.currPos.fileOffset / Chunk.CHUNKSIZE : ℕ) := by
  rw [h.coherent.chunkNum, toInt32_of_lt (Nat.div_lt_of_lt_mul (by rw [Nat.mul_comm]; exact h.low))]

/-- The current chunk of a connected descriptor. -/
theorem Core.current (h : Core initial sent fd) (hpref : fd.currPos.preferredServer = true) :
    ∃ chunk c, fd.GetCurrChunk = some chunk ∧ chunk.chunkId = fd.currPos.fileOffset / Chunk.CHUNKSIZE ∧
      fd.chunks chunk.chunkId = some c ∧ chunk.chunkSize = c.size := by
  obtain ⟨chunk, c, hcur, hc, hsize⟩ := h.coherent.sized hpref
  obtain ⟨hid, -⟩ := h.coherent.current hcur
  refine ⟨chunk, c, hcur, ?_, ?_, hsize⟩
  · rw [hid, h.chunkNum_eq, Int.toNat_natCast]
  · rw [hid]
    exact (chunkAt_nonneg hc).2

@[simp] theorem afterWrite_currPos : (fd.afterWrite chunk c offset d).currPos = fd.currPos := by
  unfold afterWrite
  split_ifs <;> rfl

@[simp] theorem afterWrite_buffer : (fd.afterWrite chunk c offset d).buffer = fd.buffer := by
  unfold afterWrite
  split_ifs <;> rfl

@[simp] theorem afterWrite_openMode : (fd.afterWrite chunk c offset d).openMode = fd.openMode := by
  unfold afterWrite
  split_ifs <;> rfl

@[simp] theorem afterWrite_chunks : (fd.afterWrite chunk c offset d).chunks =
    Function.update fd.chunks chunk.chunkId (some (c.write offset d)) := by
  unfold afterWrite
  split_ifs <;> rfl

theorem afterWrite_cattr (hcur : fd.GetCurrChunk = some chunk) :
    (fd.afterWrite chunk c offset d).cattr = Function.update fd.cattr fd.currPos.chunkNum
      (some { chunk with chunkSize := max chunk.chunkSize (offset + d.length) }) := by
  unfold afterWrite
  split_ifs with hlt
  · simp only [setCurrChunk, max_eq_right hlt.le]
  · simp only [max_eq_left (not_lt.1 hlt)]
    rw [← hcur]
    exact (Function.update_eq_self _ _).symm

section Write

variable (h : Core initial sent fd) (hcur : fd.GetCurrChunk = some chunk)
  (hid : chunk.chunkId = fd.currPos.fileOffset / Chunk.CHUNKSIZE) (hc : fd.chunks chunk.chunkId = some c)
  (hsize : chunk.chunkSize = c.size) (hd : d ≠ []) (hle : offset + d.length ≤ Chunk.CHUNKSIZE)

include h hid hc hsize hd

theorem afterWrite_fileSize : (fd.afterWrite chunk c offset d).fileSize =
    max fd.fileSize (fd.currPos.fileOffset / Chunk.CHUNKSIZE * Chunk.CHUNKSIZE + offset + d.length) := by
  have hlen := List.length_pos_iff.2 hd
  have hin := h.within _ _ hc
  have hnum := h.chunkNum_eq
  rw [hid] at hin
  unfold Fd.afterWrite
  split_ifs with hlt
  · generalize fd.currPos.fileOffset / Chunk.CHUNKSIZE = k at hin hnum ⊢
    have heow : ((offset + d.length : ℕ) + fd.currPos.chunkNum * Chunk.CHUNKSIZE).toNat =
        k * Chunk.CHUNKSIZE + offset + d.length := by
      rw [hnum]
      omega
    simp only [heow]
  · show fd.fileSize = _
    omega

include hcur hle

theorem afterWrite_coherent : (fd.afterWrite chunk c offset d).Coherent := by
  have hk : fd.currPos.chunkNum.toNat = chunk.chunkId := by rw [h.chunkNum_eq, hid, Int.toNat_natCast]
  have hpos : 0 ≤ fd.currPos.chunkNum := h.chunkNum_eq ▸ Int.natCast_nonneg _
  have hwrite : (c.write offset d).size = max c.size (offset + d.length) := if_neg hd
  refine ⟨?_, ?_, fun k attr hk' => ?_, fun hpref => ?_, fun n c' hc' => ?_⟩
  · rw [afterWrite_currPos]
    exact h.coherent.chunkNum
  · rw [afterWrite_currPos]
    exact h.coherent.chunkOffset
  · rw [afterWrite_cattr hcur] at hk'
    rw [afterWrite_chunks]
    rcases eq_or_ne k fd.currPos.chunkNum with rfl | hne
    · rw [Function.update_self] at hk'
      obtain rfl := Option.some.inj hk'
      rw [hk, Function.update_self]
      exact ⟨hpos, rfl, rfl⟩
    · rw [Function.update_of_ne hne] at hk'
      obtain ⟨hk₁, hk₂, hk₃⟩ := h.coherent.known k attr hk'
      refine ⟨hk₁, hk₂, ?_⟩
      rcases eq_or_ne k.toNat chunk.chunkId with heq | hne'
      · rw [heq, Function.update_self]
        rfl
      · rw [Function.update_of_ne hne']
        exact hk₃
  · refine ⟨{ chunk with chunkSize := max chunk.chunkSize (offset + d.length) }, c.write offset d, ?_, ?_, ?_⟩
    · rw [GetCurrChunk, afterWrite_cattr hcur, afterWrite_currPos, Function.update_self]
    · rw [afterWrite_currPos, afterWrite_chunks, chunkAt_eq hpos, hk, Function.update_self]
    · rw [hwrite, ← hsize]
  · rw [afterWrite_chunks] at hc'
    rcases eq_or_ne n chunk.chunkId with rfl | hne
    · rw [Function.update_self] at hc'
      obtain rfl := Option.some.inj hc'
      rw [hwrite]
      exact max_le (h.coherent.bounded _ _ hc) hle
    · rw [Function.update_of_ne hne] at hc'
      exact h.coherent.bounded _ _ hc'

/-- A write to the current chunk. -/
theorem Core.afterWrite :
    Core initial (sent ++ cells (fd.currPos.fileOffset / Chunk.CHUNKSIZE * Chunk.CHUNKSIZE + offset) d)
    (fd.afterWrite chunk c offset d) := by
  refine ⟨afterWrite_coherent h hcur hid hc hsize hd hle, ?_, fun n c' hc' hpos' => ?_, ?_⟩
  · rw [afterWrite_currPos]
    exact h.low
  · rw [afterWrite_chunks] at hc'
    rw [afterWrite_fileSize h hid hc hsize hd]
    rcases eq_or_ne n chunk.chunkId with rfl | hne
    · rw [Function.update_self] at hc'
      obtain rfl := Option.some.inj hc'
      have hwrite : (c.write offset d).size = max c.size (offset + d.length) := if_neg hd
      have hin := h.within _ _ hc
      have hlen := List.length_pos_iff.2 hd
      rw [hid] at hin ⊢
      rw [hwrite]
      omega
    · rw [Function.update_of_ne hne] at hc'
      exact (h.within _ _ hc' hpos').trans (le_max_left _ _)
  · rw [afterWrite_chunks, overwrite_append, overwrite_cells, ← h.content, ← hid, content_write hc hle]

end Write

/-! ## The chunk that is to be written -/

/-- The descriptor after `AllocChunk`. -/
theorem AllocChunk_eq (hk : chunk.chunkId = fd.currPos.fileOffset / Chunk.CHUNKSIZE) (hsize : chunk.chunkSize = c.size)
    (hfresh : chunk.didAllocation = false) (hc : fd.chunks chunk.chunkId = some c ∨
      fd.chunks chunk.chunkId = none ∧ c = .empty) : fd.AllocChunk =
        { fd.connect (Function.update fd.cattr fd.currPos.chunkNum (some chunk)) with
          chunks := Function.update fd.chunks chunk.chunkId (some c) } := by
  obtain ⟨id, alloc, size⟩ := chunk
  simp only at hk hsize hfresh hc
  subst hk hsize hfresh
  rcases hc with hc | ⟨hc, rfl⟩
  · have hupdate : Function.update fd.chunks (fd.currPos.fileOffset / Chunk.CHUNKSIZE) (some c) = fd.chunks := by
      rw [← hc]
      exact Function.update_eq_self _ _
    simp [AllocChunk, SizeChunk, GetCurrChunk, setCurrChunk, connect, hc, hupdate]
  · simp [AllocChunk, SizeChunk, GetCurrChunk, setCurrChunk, connect, hc]

/-- What a write does before it writes: the chunk is allocated and opened. -/
def ready (fd : Fd) : Fd :=
  if fd.DoAllocation.currPos.preferredServer then fd.DoAllocation else fd.DoAllocation.OpenChunk

/-- The descriptor connected for its chunk, which holds `c`. -/
def opened (fd : Fd) (cattr : ℤ → Option ChunkAttr) (c : Stored) : Fd :=
  { fd.connect cattr with chunks := Function.update fd.chunks (fd.currPos.fileOffset / Chunk.CHUNKSIZE) (some c) }

/-- Nothing has been written to the chunk that is opened. -/
theorem Core.opened (h : Core initial sent fd) {cattr : ℤ → Option ChunkAttr}
    (hc : fd.chunks (fd.currPos.fileOffset / Chunk.CHUNKSIZE) = some c ∨
      fd.chunks (fd.currPos.fileOffset / Chunk.CHUNKSIZE) = none ∧ c = .empty)
    (hcur : cattr fd.currPos.chunkNum = some chunk) (hid : chunk.chunkId = fd.currPos.fileOffset / Chunk.CHUNKSIZE)
    (hsize : chunk.chunkSize = c.size) (hother : ∀ k, k ≠ fd.currPos.chunkNum → cattr k = fd.cattr k) :
    Core initial sent (fd.opened cattr c) := by
  have hnum := h.chunkNum_eq
  have hlow := h.low
  have hpos : 0 ≤ fd.currPos.chunkNum := hnum ▸ Int.natCast_nonneg _
  have hk : fd.currPos.chunkNum.toNat = fd.currPos.fileOffset / Chunk.CHUNKSIZE := by rw [hnum, Int.toNat_natCast]
  have hstored : ∀ n c', (fd.opened cattr c).chunks n = some c' → fd.chunks n = some c' ∨ c' = .empty := by
    intro n c' hc'
    rcases eq_or_ne n (fd.currPos.fileOffset / Chunk.CHUNKSIZE) with rfl | hne
    · obtain rfl : c = c' := by simpa [Fd.opened] using hc'
      exact hc.imp id And.right
    · exact Or.inl (by simpa [Fd.opened, hne] using hc')
  refine ⟨⟨h.coherent.chunkNum, h.coherent.chunkOffset, fun k attr hattr => ?_, fun _ => ?_, fun n c' hc' => ?_⟩, hlow,
    fun n c' hc' hpos' => ?_, ?_⟩
  · rcases eq_or_ne k fd.currPos.chunkNum with rfl | hne
    · obtain rfl : chunk = attr := Option.some.inj (hcur.symm.trans hattr)
      exact ⟨hpos, hid.trans hk.symm, by simp [Fd.opened, hk]⟩
    · obtain ⟨hk₁, hk₂, hk₃⟩ := h.coherent.known k attr ((hother k hne).symm.trans hattr)
      refine ⟨hk₁, hk₂, ?_⟩
      rcases eq_or_ne k.toNat (fd.currPos.fileOffset / Chunk.CHUNKSIZE) with heq | hne'
      · simp [Fd.opened, heq]
      · simpa [Fd.opened, hne'] using hk₃
  · refine ⟨chunk, c, hcur, ?_, hsize⟩
    show chunkAt (fd.opened cattr c).chunks fd.currPos.chunkNum = some c
    rw [chunkAt_eq hpos, hk]
    exact Function.update_self ..
  · rcases hstored n c' hc' with hc' | rfl
    · exact h.coherent.bounded _ _ hc'
    · exact Nat.zero_le _
  · rcases hstored n c' hc' with hc' | rfl
    · exact h.within _ _ hc' hpos'
    · exact absurd hpos' (lt_irrefl 0)
  · rw [← h.content]
    show Client.content (Function.update fd.chunks (fd.currPos.fileOffset / Chunk.CHUNKSIZE) (some c)) =
      Client.content fd.chunks
    rcases hc with hc | ⟨hc, rfl⟩
    · rw [← hc, Function.update_eq_self]
    · exact content_empty hc

/-- A chunk that has not been allocated through the descriptor is allocated and opened. -/
theorem ready_allocate (hfd : fd.DoAllocation = DoAllocation.allocate fd)
    (hk : chunk.chunkId = fd.currPos.fileOffset / Chunk.CHUNKSIZE)
    (hsize : chunk.chunkSize = c.size) (hfresh : chunk.didAllocation = false)
    (hc : fd.chunks chunk.chunkId = some c ∨ fd.chunks chunk.chunkId = none ∧ c = .empty) :
    fd.ready =
      fd.opened (Function.update fd.cattr fd.currPos.chunkNum (some { chunk with didAllocation := true })) c := by
  have halloc : DoAllocation.allocate fd =
      fd.opened (Function.update fd.cattr fd.currPos.chunkNum (some { chunk with didAllocation := true })) c := by
    rw [DoAllocation.allocate, AllocChunk_eq hk hsize hfresh hc]
    simp [GetCurrChunk, connect, setCurrChunk, opened, hk]
  rw [ready, hfd, halloc]
  rfl

/-- The chunk is there and open, and what the file holds is what it was. -/
theorem ready_eq (h : Core initial sent fd) : ∃ cattr c, fd.ready = fd.opened cattr c ∧
    Core initial sent (fd.opened cattr c) := by
  by_cases hdid : ∃ chunk, fd.GetCurrChunk = some chunk ∧ chunk.didAllocation = true
  · obtain ⟨chunk, hcur, hdid⟩ := hdid
    obtain ⟨hpos, hid, hsome⟩ := h.coherent.known _ _ hcur
    obtain ⟨c, hc⟩ := Option.isSome_iff_exists.1 hsome
    have hk : fd.currPos.chunkNum.toNat = fd.currPos.fileOffset / Chunk.CHUNKSIZE := by
      rw [h.chunkNum_eq, Int.toNat_natCast]
    have hsame : Function.update fd.chunks (fd.currPos.fileOffset / Chunk.CHUNKSIZE) (some c) = fd.chunks := by
      rw [← hk, ← hc, Function.update_eq_self]
    have halloc : fd.DoAllocation = fd := by simp [DoAllocation, hcur, hdid]
    rw [hk] at hid hc
    by_cases hpref : fd.currPos.preferredServer = true
    · obtain ⟨chunk', c', hcur', -, hc', hsize'⟩ := h.current hpref
      obtain rfl := Option.some.inj (hcur.symm.trans hcur')
      obtain rfl : c = c' := Option.some.inj (hc.symm.trans (hid ▸ hc'))
      refine ⟨fd.cattr, c, ?_, h.opened (Or.inl hc) hcur hid hsize' fun _ _ => rfl⟩
      rw [ready, halloc, if_pos hpref, Fd.opened, hsame]
      simp [connect, ← hpref]
    · refine ⟨Function.update fd.cattr fd.currPos.chunkNum (some { chunk with chunkSize := c.size }), c, ?_,
        h.opened (Or.inl hc) (Function.update_self ..) hid rfl fun k hk' => Function.update_of_ne hk' ..⟩
      rw [ready, halloc, if_neg hpref, OpenChunk_eq hcur (hid ▸ hc), Fd.opened, hsame]
      rfl
  · have halloc : fd.DoAllocation = DoAllocation.allocate fd := by
      rw [DoAllocation]
      split
      · next chunk hcur => exact if_neg fun hdid' => hdid ⟨chunk, hcur, hdid'⟩
      · rfl
    obtain ⟨c, hc⟩ : ∃ c, fd.chunks (fd.currPos.fileOffset / Chunk.CHUNKSIZE) = some c ∨
        fd.chunks (fd.currPos.fileOffset / Chunk.CHUNKSIZE) = none ∧ c = .empty := by
      cases hstored : fd.chunks (fd.currPos.fileOffset / Chunk.CHUNKSIZE) with
      | none => exact ⟨_, Or.inr ⟨rfl, rfl⟩⟩
      | some c => exact ⟨c, Or.inl rfl⟩
    exact ⟨_, c, @ready_allocate fd c ⟨fd.currPos.fileOffset / Chunk.CHUNKSIZE, false, c.size⟩ halloc rfl rfl rfl hc,
      h.opened hc (Function.update_self ..) rfl rfl fun k hk => Function.update_of_ne hk ..⟩

end Fd

/-! ## The ordinary file -/

/-- An ordinary file that is open, with what has been written to it, byte by byte. -/
structure PlainFile where
  content : ℕ → UInt8
  size : ℕ
  pos : ℕ
  openMode : OpenMode
  written : List (ℕ × UInt8) := []

namespace PlainFile

/-- The bytes `d` are written at the position of the file. -/
def put (f : PlainFile) (d : List UInt8) : PlainFile :=
  { f with
    content := store f.content f.pos d
    size := if d = [] then f.size else max f.size (f.pos + d.length)
    pos := f.pos + d.length
    written := f.written ++ cells f.pos d }

theorem put_nil (f : PlainFile) : f.put [] = f := by simp [put]

theorem put_append (f : PlainFile) (d e : List UInt8) : f.put (d ++ e) = (f.put d).put e := by
  rcases eq_or_ne d [] with rfl | hd
  · rw [put_nil, List.nil_append]
  rcases eq_or_ne e [] with rfl | he
  · rw [put_nil, List.append_nil]
  · simp only [put, hd, he, List.append_eq_nil_iff, false_and, if_false, List.length_append, store_append, cells_append,
      List.append_assoc, Nat.add_assoc, max_assoc]
    congr 2
    omega

end PlainFile

namespace Fd

variable {f : PlainFile}

/-! ## The bytes that have not been sent -/

/-- The bytes of the write buffer, with their positions in the file. -/
def pendingBytes (fd : Fd) : List (ℕ × UInt8) :=
  if fd.buffer.dirty then
    cells (fd.buffer.chunkno.toNat * Chunk.CHUNKSIZE + fd.buffer.start) (load fd.buffer.buf 0 fd.buffer.length)
  else []

/-- Where the bytes of the write buffer end in the file. -/
def pendingEnd (fd : Fd) : ℕ :=
  if fd.buffer.dirty then fd.buffer.chunkno.toNat * Chunk.CHUNKSIZE + fd.buffer.start + fd.buffer.length else 0

/-- The write buffer belongs to the current chunk, for which there is a connection. -/
structure Pending (fd : Fd) : Prop where
  chunkno : fd.buffer.chunkno = fd.currPos.chunkNum
  pos : 0 < fd.buffer.length
  le : fd.buffer.length ≤ BUF_SIZE
  within : fd.buffer.start + fd.buffer.length ≤ Chunk.CHUNKSIZE
  connected : fd.currPos.preferredServer = true

/-- The descriptor and the chunks hold what the ordinary file holds: what has been written and not been sent is in the
write buffer. -/
structure Holds (initial : ℕ → UInt8) (fd : Fd) (f : PlainFile) : Prop where
  sent : ∃ sent, Core initial sent fd ∧ f.written = sent ++ fd.pendingBytes
  pending : fd.buffer.dirty = true → fd.Pending
  size : f.size = max fd.fileSize fd.pendingEnd
  content : f.content = overwrite initial f.written
  mode : fd.openMode = f.openMode

theorem Core.buffered (h : Core initial sent fd) (b : ChunkBuffer) : Core initial sent { fd with buffer := b } :=
  ⟨⟨h.coherent.chunkNum, h.coherent.chunkOffset, h.coherent.known, h.coherent.sized, h.coherent.bounded⟩, h.low,
    h.within, h.content⟩

/-- `FlushBuffer` sends the bytes of the buffer. -/
theorem FlushBuffer_holds (h : Holds initial fd f) : ∃ fd', fd.FlushBuffer = some fd' ∧ Holds initial fd' f ∧
    fd'.buffer.dirty = false ∧ fd'.currPos = fd.currPos := by
  cases hdirty : fd.buffer.dirty with
  | false => exact ⟨fd, by simp [FlushBuffer, hdirty], h, hdirty, rfl⟩
  | true =>
    obtain ⟨sent, hcore, hwritten⟩ := h.sent
    have hp := h.pending hdirty
    obtain ⟨chunk, c, hcur, hid, hc, hsize⟩ := hcore.current hp.connected
    have hk : fd.buffer.chunkno.toNat = fd.currPos.fileOffset / Chunk.CHUNKSIZE := by
      rw [hp.chunkno, hcore.chunkNum_eq, Int.toNat_natCast]
    set d := load fd.buffer.buf 0 fd.buffer.length with hd
    have hlen : d.length = fd.buffer.length := length_load
    have hne : d ≠ [] := List.length_pos_iff.1 (hlen ▸ hp.pos)
    have hle : fd.buffer.start + d.length ≤ Chunk.CHUNKSIZE := hlen ▸ hp.within
    have htake : d.take (Chunk.CHUNKSIZE - fd.buffer.start) = d := List.take_of_length_le (by omega)
    have hwrite := DoLargeWriteToServer_eq d hcur hc (le_trans (Nat.le_add_right _ _) hle)
    rw [htake] at hwrite
    have hcore' := hcore.afterWrite hcur hid hc hsize hne hle
    refine ⟨{ fd.afterWrite chunk c fd.buffer.start d with buffer := { fd.buffer with dirty := false, length := 0 } },
      ?_, ⟨⟨_, hcore'.buffered _, ?_⟩, fun hdirty' => ?_, ?_, h.content, ?_⟩, rfl, ?_⟩
    · simp [FlushBuffer, hdirty, WriteToServer, ← hd, hwrite]
    · rw [hwritten, pendingBytes, if_pos hdirty, hk, ← hd]
      exact (List.append_nil _).symm
    · cases hdirty'
    · rw [h.size, pendingEnd, if_pos hdirty, hk, pendingEnd]
      show _ = max (fd.afterWrite chunk c fd.buffer.start d).fileSize 0
      rw [afterWrite_fileSize hcore hid hc hsize hne, hlen, Nat.max_zero]
    · rw [← h.mode]
      exact afterWrite_openMode
    · exact afterWrite_currPos

/-- The position changes, and nothing else does. -/
theorem Holds.moved (h : Holds initial fd f) {newOff : ℕ} (hlow : newOff < 2 ^ 31 * Chunk.CHUNKSIZE)
    (hdirty : fd.buffer.dirty = true → fd.currPos.chunkNum = toInt32 (newOff / Chunk.CHUNKSIZE)) :
    Holds initial (fd.moved newOff) f := by
  obtain ⟨sent, hcore, hwritten⟩ := h.sent
  refine ⟨⟨sent, ⟨hcore.coherent.moved newOff, hlow, hcore.within, hcore.content⟩, hwritten⟩, fun hd => ?_, h.size,
    h.content, h.mode⟩
  have hp := h.pending hd
  refine ⟨?_, hp.pos, hp.le, hp.within, ?_⟩
  · rw [moved_chunkNum, ← hdirty hd]
    exact hp.chunkno
  · simp [Fd.moved, hp.connected, hdirty hd]

theorem seekTo_holds (h : Holds initial fd f) {newOff : ℕ} (hlow : newOff < 2 ^ 31 * Chunk.CHUNKSIZE) :
    ∃ fd', fd.seekTo newOff = some fd' ∧ Holds initial fd' f ∧ fd'.currPos.fileOffset = newOff := by
  rcases eq_or_ne fd.currPos.chunkNum (toInt32 (newOff / Chunk.CHUNKSIZE)) with heq | hne
  · refine ⟨fd.moved newOff, ?_, h.moved hlow fun _ => heq, rfl⟩
    simp [seekTo, moved, heq]
  · obtain ⟨fd', hflush, hholds, hclean, hpos⟩ := FlushBuffer_holds h
    refine ⟨fd'.moved newOff, ?_, hholds.moved hlow fun hdirty => ?_, rfl⟩
    · simp [seekTo, moved, hne, hflush, hclean, hpos]
    · rw [hclean] at hdirty
      cases hdirty

/-- The buffer takes bytes that come right behind those that it has. -/
theorem append_holds {cb : ChunkBuffer} {n : ℕ} (hcore : Core initial sent fd)
    (hconn : fd.currPos.preferredServer = true) (hmode : fd.openMode = f.openMode)
    (hcontent : f.content = overwrite initial f.written) (hpos : fd.currPos.fileOffset = f.pos)
    (hsize : fd.fileSize ≤ f.size) (hsize' : f.size ≤ max fd.fileSize f.pos)
    (hno : cb.chunkno = fd.currPos.chunkNum) (hdirty : cb.dirty = true)
    (hstart : cb.start + cb.length = fd.currPos.chunkOffset) (hn : 0 < n) (hfull : cb.length + n ≤ BUF_SIZE)
    (hin : fd.currPos.chunkOffset + n ≤ Chunk.CHUNKSIZE) (hd : d.length = n)
    (hwritten : f.written = sent ++ cells (cb.chunkno.toNat * Chunk.CHUNKSIZE + cb.start) (load cb.buf 0 cb.length)) :
    Holds initial { fd with buffer := { cb with buf := store cb.buf cb.length d, length := cb.length + n } }
      (f.put d) := by
  have hne : d ≠ [] := List.length_pos_iff.1 (hd ▸ hn)
  have hat : cb.chunkno.toNat * Chunk.CHUNKSIZE + cb.start + cb.length = f.pos := by
    rw [hno, hcore.chunkNum_eq, Int.toNat_natCast, Nat.add_assoc, hstart, hcore.coherent.chunkOffset, ← hpos,
      Nat.div_add_mod']
  have hold : load (store cb.buf cb.length d) 0 cb.length = load cb.buf 0 cb.length :=
    load_congr fun i _ hi => store_of_lt (by omega)
  have hnew : load (store cb.buf cb.length d) (0 + cb.length) n = d := by
    refine List.ext_getElem (by rw [length_load, hd]) fun i h₁ h₂ => ?_
    rw [getElem_load, store_of_mem (by omega) (by omega)]
    congr 1
    omega
  refine ⟨⟨sent, hcore.buffered _, ?_⟩, fun _ => ⟨hno, Nat.add_pos_right _ hn, hfull, ?_, hconn⟩, ?_, ?_, hmode⟩
  · simp only [pendingBytes, hdirty, if_true, load_append, hold, hnew]
    rw [cells_append, length_load, hat, ← List.append_assoc, ← hwritten]
    rfl
  · show cb.start + (cb.length + n) ≤ Chunk.CHUNKSIZE
    omega
  · simp only [pendingEnd, hdirty, if_true, PlainFile.put, hne, if_false]
    omega
  · simp only [PlainFile.put]
    rw [overwrite_append, overwrite_cells, ← hcontent]

/-- The buffer that `WriteToBuffer` appends to. -/
def target (fd : Fd) : ChunkBuffer :=
  if fd.buffer.dirty then fd.buffer
  else { fd.buffer with chunkno := fd.currPos.chunkNum, start := fd.currPos.chunkOffset, length := 0, dirty := true }

theorem WriteToBuffer_eq {fd₁ : Fd} {buf : List UInt8} {n : ℕ} (hno : fd.buffer.dirty = true →
      fd.buffer.chunkno = fd.currPos.chunkNum)
    (hflush : (if fd.buffer.dirty ∧ ((fd.currPos.chunkOffset - fd.buffer.start : ℤ) ≠ fd.buffer.length ∨
      fd.buffer.length = BUF_SIZE) then fd.FlushBuffer else some fd) = some fd₁)
    (hstart : fd₁.target.start + fd₁.target.length = fd₁.currPos.chunkOffset) (hroom : fd₁.target.length < BUF_SIZE)
    (hn : n = min (BUF_SIZE - fd₁.target.length) (min buf.length (Chunk.CHUNKSIZE - fd₁.currPos.chunkOffset)))
    (hpos : 0 < n) : fd.WriteToBuffer buf = some (n, { fd₁ with buffer := { fd₁.target with
      buf := store fd₁.target.buf fd₁.target.length (buf.take n), length := fd₁.target.length + n } }) := by
  have hfirst : ¬ (fd.buffer.dirty = true ∧ fd.buffer.chunkno ≠ fd.currPos.chunkNum) := fun h => h.2 (hno h.1)
  have hstart' : fd₁.currPos.chunkOffset - fd₁.target.start = fd₁.target.length := by omega
  have hmax : max fd₁.target.length (fd₁.target.length + n) = fd₁.target.length + n :=
    max_eq_right (Nat.le_add_right _ _)
  have hbytes : min buf.length (Chunk.CHUNKSIZE - fd₁.currPos.chunkOffset) ≠ 0 := by omega
  have hok : 0 < n ∧ fd₁.target.start ≤ fd₁.currPos.chunkOffset ∧ fd₁.target.length < BUF_SIZE :=
    ⟨hpos, by omega, hroom⟩
  have htarget : (if fd₁.buffer.dirty = true then fd₁.buffer else { fd₁.buffer with
      chunkno := fd₁.currPos.chunkNum, start := fd₁.currPos.chunkOffset, length := 0, dirty := true }) =
        fd₁.target := rfl
  rw [WriteToBuffer]
  simp only [if_neg hfirst, hflush]
  rw [if_neg hbytes]
  simp only [htarget, ← hn, hstart', if_pos hok, hmax]

/-- The buffer takes the first bytes of a write, as many as there is room for. -/
theorem WriteToBuffer_holds {buf : List UInt8} (h : Holds initial fd f) (hconn : fd.currPos.preferredServer = true)
    (hpos : fd.currPos.fileOffset = f.pos) (hbuf : buf ≠ []) : ∃ n fd', fd.WriteToBuffer buf = some (n, fd') ∧ 0 < n ∧
      n ≤ buf.length ∧ Holds initial fd' (f.put (buf.take n)) ∧ fd'.currPos = fd.currPos := by
  have hBUF : 0 < BUF_SIZE := by decide
  -- the buffer is flushed unless the bytes come right behind those that it has
  obtain ⟨fd₁, hflush, h₁, hcurr, hnext⟩ : ∃ fd₁, (if fd.buffer.dirty ∧
      ((fd.currPos.chunkOffset - fd.buffer.start : ℤ) ≠ fd.buffer.length ∨ fd.buffer.length = BUF_SIZE)
        then fd.FlushBuffer else some fd) = some fd₁ ∧ Holds initial fd₁ f ∧ fd₁.currPos = fd.currPos ∧
      (fd₁.buffer.dirty = true → fd₁.buffer.start + fd₁.buffer.length = fd₁.currPos.chunkOffset ∧
        fd₁.buffer.length < BUF_SIZE) := by
    split_ifs with hneed
    · obtain ⟨fd₁, hflush, h₁, hclean, hcurr⟩ := FlushBuffer_holds h
      exact ⟨fd₁, hflush, h₁, hcurr, fun hdirty => by rw [hclean] at hdirty; cases hdirty⟩
    · refine ⟨fd, rfl, h, rfl, fun hdirty => ?_⟩
      have hle := (h.pending hdirty).le
      push Not at hneed
      obtain ⟨hstart, hfull⟩ := hneed hdirty
      exact ⟨by omega, by omega⟩
  obtain ⟨sent, hcore, hwritten⟩ := h₁.sent
  have hoff := hcore.coherent.offset_lt
  have hlen := List.length_pos_iff.2 hbuf
  have hat : fd₁.currPos.fileOffset / Chunk.CHUNKSIZE * Chunk.CHUNKSIZE + fd₁.currPos.chunkOffset = f.pos := by
    rw [hcore.coherent.chunkOffset, Nat.div_add_mod', hcurr, hpos]
  -- what holds of the buffer that takes the bytes
  have htarget : fd₁.target.chunkno = fd₁.currPos.chunkNum ∧ fd₁.target.dirty = true ∧
      fd₁.target.start + fd₁.target.length = fd₁.currPos.chunkOffset ∧ fd₁.target.length < BUF_SIZE ∧
      f.written = sent ++ cells (fd₁.target.chunkno.toNat * Chunk.CHUNKSIZE + fd₁.target.start)
        (load fd₁.target.buf 0 fd₁.target.length) ∧ f.size ≤ max fd₁.fileSize f.pos := by
    have hsize := h₁.size
    cases hdirty : fd₁.buffer.dirty with
    | true =>
      obtain ⟨hstart, hfull⟩ := hnext hdirty
      have hp := h₁.pending hdirty
      have hk : fd₁.buffer.chunkno.toNat = fd₁.currPos.fileOffset / Chunk.CHUNKSIZE := by
        rw [hp.chunkno, hcore.chunkNum_eq, Int.toNat_natCast]
      rw [pendingBytes, if_pos hdirty] at hwritten
      rw [pendingEnd, if_pos hdirty, hk, Nat.add_assoc, hstart, hat] at hsize
      rw [target, if_pos hdirty]
      exact ⟨hp.chunkno, hdirty, hstart, hfull, hwritten, hsize.le⟩
    | false =>
      rw [pendingBytes, hdirty] at hwritten
      rw [pendingEnd, hdirty] at hsize
      rw [target, hdirty]
      refine ⟨rfl, rfl, rfl, hBUF, hwritten, ?_⟩
      rw [hsize]
      exact max_le_max le_rfl (Nat.zero_le _)
  obtain ⟨hno, hdirty, hstart, hfull, hwritten', hsize⟩ := htarget
  set n := min (BUF_SIZE - fd₁.target.length) (min buf.length (Chunk.CHUNKSIZE - fd₁.currPos.chunkOffset)) with hn
  have hn₀ : 0 < n := by omega
  have heq := WriteToBuffer_eq (fun hd => (h.pending hd).chunkno) hflush hstart hfull hn hn₀
  refine ⟨n, _, heq, hn₀, by omega, ?_, hcurr⟩
  exact append_holds hcore (by rw [hcurr]; exact hconn) h₁.mode h₁.content (by rw [hcurr, hpos])
    (by rw [h₁.size]; exact le_max_left _ _) hsize hno hdirty hstart hn₀ (by omega) (by omega)
    (by rw [List.length_take]; omega) hwritten'

theorem ready_holds (h : Holds initial fd f) : ∃ fd', fd.ready = fd' ∧ Holds initial fd' f ∧
    fd'.currPos.preferredServer = true ∧ fd'.currPos.fileOffset = fd.currPos.fileOffset := by
  obtain ⟨sent, hcore, hwritten⟩ := h.sent
  obtain ⟨cattr, c, hready, hcore'⟩ := ready_eq hcore
  refine ⟨_, hready, ⟨⟨sent, hcore', hwritten⟩, fun hdirty => ?_, h.size, h.content, h.mode⟩, rfl, rfl⟩
  have hp := h.pending hdirty
  exact ⟨hp.chunkno, hp.pos, hp.le, hp.within, rfl⟩

/-- A large write goes to the chunk servers at once, up to the end of the chunk. -/
theorem WriteToServer_holds {buf : List UInt8} (h : Holds initial fd f) (hconn : fd.currPos.preferredServer = true)
    (hpos : fd.currPos.fileOffset = f.pos) (hbuf : buf ≠ []) (hclean : fd.buffer.dirty = false) :
    ∃ n fd', fd.WriteToServer fd.currPos.chunkOffset buf = some (n, fd') ∧ 0 < n ∧ n ≤ buf.length ∧
      Holds initial fd' (f.put (buf.take n)) ∧ fd'.currPos = fd.currPos := by
  obtain ⟨sent, hcore, hwritten⟩ := h.sent
  obtain ⟨chunk, c, hcur, hid, hc, hsize⟩ := hcore.current hconn
  have hoff := hcore.coherent.offset_lt
  have hlen := List.length_pos_iff.2 hbuf
  have hwrite := DoLargeWriteToServer_eq buf hcur hc hoff.le
  set n := min buf.length (Chunk.CHUNKSIZE - fd.currPos.chunkOffset) with hn
  have htake : buf.take (Chunk.CHUNKSIZE - fd.currPos.chunkOffset) = buf.take n := by
    rw [List.take_eq_take_iff]
    omega
  have hlen' : (buf.take n).length = n := by
    rw [List.length_take]
    omega
  have hne : buf.take n ≠ [] := List.length_pos_iff.1 (by omega)
  have hat : fd.currPos.fileOffset / Chunk.CHUNKSIZE * Chunk.CHUNKSIZE + fd.currPos.chunkOffset = f.pos := by
    rw [hcore.coherent.chunkOffset, Nat.div_add_mod', hpos]
  have hle : fd.currPos.chunkOffset + (buf.take n).length ≤ Chunk.CHUNKSIZE := by omega
  have hcore' := hcore.afterWrite hcur hid hc hsize hne hle
  have hfile := @afterWrite_fileSize fd c chunk initial sent _ fd.currPos.chunkOffset hcore hid hc hsize hne
  have hsize' := h.size
  rw [htake] at hwrite
  rw [hat] at hcore' hfile
  rw [pendingBytes, hclean] at hwritten
  rw [pendingEnd, hclean] at hsize'
  refine ⟨n, _, hwrite, by omega, by omega, ⟨⟨_, hcore', ?_⟩, fun hdirty => ?_, ?_, ?_, ?_⟩, afterWrite_currPos⟩
  · rw [pendingBytes, afterWrite_buffer, hclean, PlainFile.put, hwritten]
    simp
  · rw [afterWrite_buffer, hclean] at hdirty
    cases hdirty
  · rw [pendingEnd, afterWrite_buffer, hclean, hfile, PlainFile.put]
    simp only [hne, if_false, hsize', Bool.false_eq_true, Nat.max_zero]
  · simp only [PlainFile.put]
    rw [overwrite_append, overwrite_cells, ← h.content]
  · rw [afterWrite_openMode]
    exact h.mode

/-- A round of `Write` takes the first bytes, to the buffer or to the chunk servers. -/
theorem writeRound_holds {buf : List UInt8} (h : Holds initial fd f) (hpos : fd.currPos.fileOffset = f.pos)
    (hbuf : buf ≠ []) : ∃ n fd', fd.writeRound buf = some (n, fd') ∧ 0 < n ∧ n ≤ buf.length ∧
      Holds initial fd' (f.put (buf.take n)) ∧ fd'.currPos.fileOffset = fd.currPos.fileOffset := by
  obtain ⟨fd₁, hready, h₁, hconn, hpos₁⟩ := ready_holds h
  have hround : fd.writeRound buf = if buf.length < BUF_SIZE ∨ fd₁.buffer.dirty then fd₁.WriteToBuffer buf
      else fd₁.WriteToServer fd₁.currPos.chunkOffset buf := by
    rw [← hready]
    rfl
  rw [hround, ← hpos₁]
  split_ifs with hsmall
  · obtain ⟨n, fd', hwrite, hn, hle, h', hcurr⟩ := WriteToBuffer_holds h₁ hconn (hpos₁.trans hpos) hbuf
    exact ⟨n, fd', hwrite, hn, hle, h', congrArg _ hcurr⟩
  · have hclean : fd₁.buffer.dirty = false := by
      rw [← Bool.not_eq_true]
      exact fun hdirty => hsmall (Or.inr hdirty)
    obtain ⟨n, fd', hwrite, hn, hle, h', hcurr⟩ := WriteToServer_holds h₁ hconn (hpos₁.trans hpos) hbuf hclean
    exact ⟨n, fd', hwrite, hn, hle, h', congrArg _ hcurr⟩

theorem writeLoop_holds {fuel : ℕ} {buf : List UInt8} (h : Holds initial fd f) (hpos : fd.currPos.fileOffset = f.pos)
    (hfuel : buf.length ≤ fuel) (hlow : f.pos + buf.length < 2 ^ 31 * Chunk.CHUNKSIZE) :
    ∃ fd', writeLoop fuel buf fd = some fd' ∧ Holds initial fd' (f.put buf) ∧
      fd'.currPos.fileOffset = (f.put buf).pos := by
  induction fuel generalizing fd f buf with
  | zero =>
    obtain rfl := List.eq_nil_of_length_eq_zero (Nat.le_zero.1 hfuel)
    exact ⟨fd, rfl, by rw [PlainFile.put_nil]; exact h, by rw [PlainFile.put_nil, hpos]⟩
  | succ fuel ih =>
    rcases eq_or_ne buf [] with rfl | hbuf
    · exact ⟨fd, by rw [writeLoop, if_pos rfl], by rw [PlainFile.put_nil]; exact h, by rw [PlainFile.put_nil, hpos]⟩
    obtain ⟨n, fd₁, hround, hn, hle, h₁, hpos₁⟩ := writeRound_holds h hpos hbuf
    have hlen : (buf.take n).length = n := by
      rw [List.length_take]
      omega
    obtain ⟨fd₂, hseek, h₂, hpos₂⟩ :=
      seekTo_holds h₁ (show fd₁.currPos.fileOffset + n < 2 ^ 31 * Chunk.CHUNKSIZE by omega)
    have hput : (f.put (buf.take n)).pos = f.pos + n := by
      rw [PlainFile.put, hlen]
    obtain ⟨fd', hloop, h', hpos'⟩ := @ih (f.put (buf.take n)) fd₂ (buf.drop n) h₂ (by omega)
      (by rw [List.length_drop]; omega) (by rw [List.length_drop]; omega)
    rw [← PlainFile.put_append, List.take_append_drop] at h' hpos'
    refine ⟨fd', ?_, h', hpos'⟩
    rw [writeLoop, if_neg hbuf, hround]
    simp only [Seek_cur, hseek, hloop]

end Fd

/-! ## Runs -/

/-- The calls on a descriptor. -/
inductive Call
  | write (d : List UInt8)
  | seek (offset : ℤ) (whence : Fd.Whence)
  | sync

namespace PlainFile

/-- `none` stands for a seek in front of the file. -/
def call (f : PlainFile) : Call → Option PlainFile
  | .write d => some (if f.openMode = .rdonly then f else f.put d)
  | .seek offset whence =>
    let newOff : ℤ := match whence with
      | .SEEK_SET => offset
      | .SEEK_CUR => f.pos + offset
      | .SEEK_END => f.size + offset
    if newOff < 0 then none else some { f with pos := newOff.toNat }
  | .sync => some f

def run (f : PlainFile) : List Call → Option PlainFile
  | [] => some f
  | c :: cs => (f.call c).bind fun f => f.run cs

end PlainFile

namespace Fd

variable {f f' : PlainFile}

def call (fd : Fd) : Call → Option Fd
  | .write d => (fd.Write d).map (·.2)
  | .seek offset whence => fd.Seek offset whence
  | .sync => fd.Sync

def run (fd : Fd) : List Call → Option Fd
  | [] => some fd
  | c :: cs => (fd.call c).bind fun fd => fd.run cs

/-- The position stays where the number of a chunk fits into 32 bits, and a seek from the end of the file finds no bytes
in the write buffer behind the end that the descriptor knows of. -/
def Safe (fd : Fd) : Call → Prop
  | .write d => fd.openMode ≠ .rdonly → fd.currPos.fileOffset + d.length < 2 ^ 31 * Chunk.CHUNKSIZE
  | .seek offset .SEEK_SET => offset < (2 ^ 31 * Chunk.CHUNKSIZE : ℕ)
  | .seek offset .SEEK_CUR => fd.currPos.fileOffset + offset < (2 ^ 31 * Chunk.CHUNKSIZE : ℕ)
  | .seek offset .SEEK_END => fd.fileSize + offset < (2 ^ 31 * Chunk.CHUNKSIZE : ℕ) ∧ fd.pendingEnd ≤ fd.fileSize
  | .sync => True

def SafeRun (fd : Fd) : List Call → Prop
  | [] => True
  | c :: cs => fd.Safe c ∧ ∀ fd', fd.call c = some fd' → fd'.SafeRun cs

/-- The ordinary file that a descriptor stands for. -/
def plain (fd : Fd) : PlainFile := ⟨Client.content fd.chunks, fd.fileSize, fd.currPos.fileOffset, fd.openMode, []⟩

/-- A descriptor without pending writes. -/
theorem Holds.start (h : fd.Coherent) (hclean : fd.buffer.dirty = false)
    (hlow : fd.currPos.fileOffset < 2 ^ 31 * Chunk.CHUNKSIZE)
    (hwithin : ∀ n c, fd.chunks n = some c → 0 < c.size → n * Chunk.CHUNKSIZE + c.size ≤ fd.fileSize) :
    Holds (Client.content fd.chunks) fd fd.plain := by
  refine ⟨⟨[], ⟨h, hlow, hwithin, rfl⟩, ?_⟩, fun hdirty => ?_, ?_, rfl, rfl⟩
  · simp [plain, pendingBytes, hclean]
  · rw [hclean] at hdirty
    cases hdirty
  · simp [plain, pendingEnd, hclean]

theorem Holds.reposition (h : Holds initial fd f) (pos : ℕ) : Holds initial fd { f with pos := pos } :=
  ⟨h.sent, h.pending, h.size, h.content, h.mode⟩

/-- What one call preserves. -/
theorem call_holds {cl : Call} (h : Holds initial fd f) (hpos : fd.currPos.fileOffset = f.pos) (hsafe : fd.Safe cl)
    (hcall : f.call cl = some f') :
    ∃ fd', fd.call cl = some fd' ∧ Holds initial fd' f' ∧ fd'.currPos.fileOffset = f'.pos := by
  cases cl with
  | write d =>
    obtain rfl := Option.some.inj hcall
    by_cases hmode : fd.openMode = .rdonly
    · refine ⟨fd, by simp [call, Write, hmode], ?_⟩
      rw [if_pos (h.mode ▸ hmode)]
      exact ⟨h, hpos⟩
    · obtain ⟨fd', hloop, h', hpos'⟩ := writeLoop_holds h hpos le_rfl (by rw [← hpos]; exact hsafe hmode)
      refine ⟨fd', by simp [call, Write, hmode, hloop], ?_⟩
      rw [if_neg (h.mode ▸ hmode)]
      exact ⟨h', hpos'⟩
  | seek offset whence =>
    -- both seek to the same position
    obtain ⟨newOff, hcode, hplain, hlow⟩ : ∃ newOff : ℕ, fd.Seek offset whence = fd.seekTo newOff ∧
        f' = { f with pos := newOff } ∧ newOff < 2 ^ 31 * Chunk.CHUNKSIZE := by
      cases whence <;> simp only [PlainFile.call] at hcall <;> split_ifs at hcall with hneg <;>
        refine ⟨_, ?_, (Option.some.inj hcall).symm, ?_⟩
      · simp only [Seek, if_neg hneg]
      · exact (Int.toNat_lt (not_lt.1 hneg)).2 hsafe
      · simp only [Seek, hpos, if_neg hneg]
      · rw [← hpos] at hneg ⊢
        exact (Int.toNat_lt (not_lt.1 hneg)).2 hsafe
      · rw [h.size, max_eq_left hsafe.2] at hneg ⊢
        simp only [Seek, if_neg hneg]
      · rw [h.size, max_eq_left hsafe.2] at hneg ⊢
        exact (Int.toNat_lt (not_lt.1 hneg)).2 hsafe.1
    obtain ⟨fd', hseek, h', hpos'⟩ := seekTo_holds h hlow
    rw [hplain]
    exact ⟨fd', hcode.trans hseek, h'.reposition newOff, hpos'⟩
  | sync =>
    obtain rfl := Option.some.inj hcall
    obtain ⟨fd', hflush, h', -, hcurr⟩ := FlushBuffer_holds h
    exact ⟨fd', hflush, h', by rw [hcurr, hpos]⟩

/-- A safe call, and calls that are safe wherever it leads. -/
theorem Holds.safeRun {cl : Call} {cs : List Call} (h : Holds initial fd f) (hpos : fd.currPos.fileOffset = f.pos)
    (hsafe : fd.Safe cl) (hcall : f.call cl = some f')
    (hnext : ∀ fd', Holds initial fd' f' → fd'.currPos.fileOffset = f'.pos → fd'.SafeRun cs) :
    fd.SafeRun (cl :: cs) := by
  obtain ⟨fd₁, hcall₁, h₁, hpos₁⟩ := call_holds h hpos hsafe hcall
  refine ⟨hsafe, fun fd' hfd' => ?_⟩
  obtain rfl := Option.some.inj (hcall₁.symm.trans hfd')
  exact hnext fd₁ h₁ hpos₁

theorem run_holds {cs : List Call} (h : Holds initial fd f) (hpos : fd.currPos.fileOffset = f.pos)
    (hsafe : fd.SafeRun cs) (hrun : f.run cs = some f') :
    ∃ fd', fd.run cs = some fd' ∧ Holds initial fd' f' ∧ fd'.currPos.fileOffset = f'.pos := by
  induction cs generalizing fd f with
  | nil =>
    obtain rfl := Option.some.inj hrun
    exact ⟨fd, rfl, h, hpos⟩
  | cons cl cs ih =>
    obtain ⟨f₁, hcall, hrest⟩ := Option.bind_eq_some_iff.1 hrun
    obtain ⟨fd₁, hcall', h₁, hpos₁⟩ := call_holds h hpos hsafe.1 hcall
    obtain ⟨fd', hrun', h', hpos'⟩ := ih h₁ hpos₁ (hsafe.2 fd₁ hcall') hrest
    exact ⟨fd', by rw [run, hcall']; exact hrun', h', hpos'⟩

end Fd

/-- **The writes of a descriptor are delivered.** In every run of safe calls, the bytes of the write buffer are those
that have been written and not been sent, in one piece of the current chunk, and a `Sync` then leaves in the chunks what
an ordinary file holds. -/
theorem run_delivers {fd : Fd} {f : PlainFile} {cs : List Call} (h : fd.Coherent) (hclean : fd.buffer.dirty = false)
    (hlow : fd.currPos.fileOffset < 2 ^ 31 * Chunk.CHUNKSIZE)
    (hwithin : ∀ n c, fd.chunks n = some c → 0 < c.size → n * Chunk.CHUNKSIZE + c.size ≤ fd.fileSize)
    (hsafe : fd.SafeRun cs) (hrun : fd.plain.run cs = some f) : ∃ fd' fd'' sent, fd.run cs = some fd' ∧
      fd'.currPos.fileOffset = f.pos ∧
      (fd'.buffer.dirty = true → fd'.buffer.chunkno = fd'.currPos.chunkNum ∧
        fd'.currPos.chunkNum = (f.pos / Chunk.CHUNKSIZE : ℕ)) ∧
      f.written = sent ++ fd'.pendingBytes ∧ content fd'.chunks = overwrite (content fd.chunks) sent ∧
      fd'.Sync = some fd'' ∧ content fd''.chunks = f.content ∧ fd''.fileSize = f.size ∧
      ∀ n c, fd''.chunks n = some c → 0 < c.size → n * Chunk.CHUNKSIZE + c.size ≤ f.size := by
  obtain ⟨fd', hrun', h', hpos⟩ := Fd.run_holds (.start h hclean hlow hwithin) rfl hsafe hrun
  obtain ⟨sent, hcore, hwritten⟩ := h'.sent
  obtain ⟨fd'', hsync, h'', hclean'', -⟩ := Fd.FlushBuffer_holds h'
  obtain ⟨sent', hcore'', hwritten''⟩ := h''.sent
  have hsize := h''.size
  rw [Fd.pendingBytes, hclean''] at hwritten''
  rw [Fd.pendingEnd, hclean''] at hsize
  refine ⟨fd', fd'', sent, hrun', hpos, fun hdirty => ⟨(h'.pending hdirty).chunkno, hpos ▸ hcore.chunkNum_eq⟩, hwritten,
    hcore.content, hsync, ?_, ?_, fun n c hc hn => ?_⟩
  · rw [hcore''.content, h''.content, hwritten'']
    simp
  · simpa using hsize.symm
  · exact (hcore''.within n c hc hn).trans (hsize ▸ le_max_left _ _)

/-- An empty file, open for reading and writing. -/
def emptyFile : Fd where
  openMode := .rdwr
  fileSize := 0
  chunks _ := none

theorem emptyFile_coherent : emptyFile.Coherent := (Fd.coherent_opened fun n c hc => by cases hc).1

/-- Two bytes that are collected in the buffer, and two around the end of the first chunk. -/
theorem run_delivers_emptyFile : ∃ fd' fd'',
    emptyFile.run [.write [1], .write [2], .seek (Chunk.CHUNKSIZE - 1 : ℕ) .SEEK_SET, .write [3, 4]] = some fd' ∧
    fd'.Sync = some fd'' ∧ load (content fd''.chunks) 0 2 = [1, 2] ∧
    load (content fd''.chunks) (Chunk.CHUNKSIZE - 1) 2 = [3, 4] ∧ fd''.fileSize = Chunk.CHUNKSIZE + 1 := by
  obtain ⟨f, hrun, hstart, hend, hsize⟩ : ∃ f, emptyFile.plain.run [.write [1], .write [2],
      .seek (Chunk.CHUNKSIZE - 1 : ℕ) .SEEK_SET, .write [3, 4]] = some f ∧ load f.content 0 2 = [1, 2] ∧
      load f.content (Chunk.CHUNKSIZE - 1) 2 = [3, 4] ∧ f.size = Chunk.CHUNKSIZE + 1 :=
    ⟨_, rfl, by decide +kernel, by decide +kernel, rfl⟩
  have hsafe : emptyFile.SafeRun
      [.write [1], .write [2], .seek (Chunk.CHUNKSIZE - 1 : ℕ) .SEEK_SET, .write [3, 4]] := by
    refine (Fd.Holds.start emptyFile_coherent rfl (by decide) fun n c hc => by cases hc).safeRun rfl
      (fun _ => by decide) rfl fun fd₁ h₁ hpos₁ => ?_
    refine h₁.safeRun hpos₁ (fun _ => by rw [hpos₁]; decide) rfl fun fd₂ h₂ hpos₂ => ?_
    refine h₂.safeRun hpos₂ (show ((Chunk.CHUNKSIZE - 1 : ℕ) : ℤ) < (2 ^ 31 * Chunk.CHUNKSIZE : ℕ) by decide) rfl
      fun fd₃ h₃ hpos₃ => ?_
    exact h₃.safeRun hpos₃ (fun _ => by rw [hpos₃]; decide) rfl fun _ _ _ => trivial
  obtain ⟨fd', fd'', sent, hrun', -, -, -, -, hsync, hcontent, hsize', -⟩ :=
    run_delivers emptyFile_coherent rfl (by decide) (fun n c hc => by cases hc) hsafe hrun
  rw [← hcontent] at hstart hend
  exact ⟨fd', fd'', hrun', hsync, hstart, hend, hsize'.trans hsize⟩

/-- A seek from the end of the file that misses the bytes in the write buffer. -/
theorem run_seek_end :
    (emptyFile.run [.write [1, 2], .seek 0 .SEEK_END, .write [3], .sync]).map (fun fd => load (content fd.chunks) 0 3) =
      some [3, 2, 0] ∧
    (emptyFile.plain.run [.write [1, 2], .seek 0 .SEEK_END, .write [3], .sync]).map (fun f => load f.content 0 3) =
      some [1, 2, 3] := by
  decide +kernel

end Kfs.Client
