import Kfs.Client.Delivery
import Kfs.Client.Holes

/-!
# Reading back what has been written

The chunk buffer is the write buffer and the read-ahead cache at once. A read sends the bytes of the write buffer first,
and a write that goes into the buffer takes the place of what was cached. A write that goes past the buffer leaves the
cached bytes as they are, and later reads still get them.

* `writeLoop_cached`, `FlushBuffer_cached`, `seekTo_cached`: what keeps the cached bytes those of the file;
* `readLoop_all`: a read that comes to no missing chunk goes to the end of the file;
* `Current.access`: what one call preserves;
* **`accesses_read`**: in a run in which no write past the buffer meets cached bytes, a read returns the bytes written
  last;
* `Read_stale`, `accesses_stale`: a write that meets them is not read back.
-/

namespace Kfs.Client

open Kfs.Lib

namespace Fd

variable {fd fd' : Fd} {c : Stored} {chunk : ChunkAttr} {initial : ℕ → UInt8} {f : PlainFile} {buf d : List UInt8}
  {n len pos : ℕ}

/-! ## The cache -/

/-- The cached bytes are not among the `len` bytes from `pos` on. -/
def Apart (b : ChunkBuffer) (pos len : ℕ) : Prop :=
  ∀ i < b.length, ∀ j < len, b.chunkno.toNat * Chunk.CHUNKSIZE + b.start + i ≠ pos + j

theorem Cached.of_empty (hclean : fd.buffer.dirty = false) (hlen : fd.buffer.length = 0) : fd.Cached :=
  ⟨hclean, fun h => absurd (hlen ▸ h) (lt_irrefl 0)⟩

theorem Apart.of_empty {b : ChunkBuffer} (h : b.length = 0) : Apart b pos len :=
  fun i hi => absurd (h ▸ hi) (Nat.not_lt_zero i)

theorem Apart.mono {b : ChunkBuffer} (h : Apart b pos len) (hn : n ≤ len) : Apart b pos n :=
  fun i hi j hj => h i hi j (hj.trans_le hn)

theorem Apart.drop {b : ChunkBuffer} (h : Apart b pos len) (n : ℕ) : Apart b (pos + n) (len - n) := by
  intro i hi j hj
  have hne := h i hi (n + j) (by omega)
  rwa [← Nat.add_assoc] at hne

/-- The buffer of a descriptor that has only been connected, moved or told of other chunks. -/
theorem Cached.congr (h : fd.Cached) (hb : fd'.buffer = fd.buffer)
    (hc : ∀ c, chunkAt fd.chunks fd.buffer.chunkno = some c → 0 < c.size →
      chunkAt fd'.chunks fd.buffer.chunkno = some c) : fd'.Cached := by
  refine ⟨by rw [hb]; exact h.clean, fun hlen => ?_⟩
  rw [hb] at hlen ⊢
  obtain ⟨c, hk, hle, hbuf⟩ := h.copied hlen
  exact ⟨c, hc c hk (by omega), hle, hbuf⟩

/-- Bytes are written to a chunk, away from the cached ones. -/
theorem Cached.written (h : fd.Cached) {k offset : ℕ} (hb : fd'.buffer = fd.buffer) (hk : fd.chunks k = some c)
    (hc : fd'.chunks = Function.update fd.chunks k (some (c.write offset d)))
    (hapart : Apart fd.buffer (k * Chunk.CHUNKSIZE + offset) d.length) : fd'.Cached := by
  refine ⟨by rw [hb]; exact h.clean, fun hlen => ?_⟩
  rw [hb] at hlen ⊢
  obtain ⟨c', hat, hin, hbuf⟩ := h.copied hlen
  obtain ⟨hpos, hstored⟩ := chunkAt_nonneg hat
  rw [hc, chunkAt_eq hpos]
  rcases eq_or_ne fd.buffer.chunkno.toNat k with heq | hne
  · rw [heq, Function.update_self]
    rw [heq, hk] at hstored
    obtain rfl := Option.some.inj hstored
    refine ⟨_, rfl, ?_, fun i hi => ?_⟩
    · show _ ≤ if d = [] then c.size else max c.size (offset + d.length)
      split_ifs
      · exact hin
      · exact hin.trans (le_max_left _ _)
    · rw [hbuf i hi]
      show _ = store c.data offset d (fd.buffer.start + i)
      rcases Nat.lt_or_ge (fd.buffer.start + i) offset with hlt | hge
      · rw [store_of_lt hlt]
      · rw [store_of_ge]
        by_contra hlt
        refine hapart i hi (fd.buffer.start + i - offset) (by omega) ?_
        rw [heq]
        omega
  · rw [Function.update_of_ne hne]
    exact ⟨c', hstored, hin, hbuf⟩

theorem FlushBuffer_cached (h : fd.buffer.dirty = false → fd.Cached) (hs : fd.FlushBuffer = some fd') : fd'.Cached := by
  cases hdirty : fd.buffer.dirty with
  | false =>
    simp only [FlushBuffer, hdirty, Bool.false_eq_true, if_false, Option.some.injEq] at hs
    exact hs ▸ h hdirty
  | true =>
    cases hw : fd.WriteToServer fd.buffer.start (load fd.buffer.buf 0 fd.buffer.length) with
    | none => simp [FlushBuffer, hdirty, hw] at hs
    | some r =>
      simp only [FlushBuffer, hdirty, hw, if_true, Option.some.injEq] at hs
      subst hs
      exact .of_empty rfl rfl

theorem FlushBuffer_length (hdirty : fd.buffer.dirty = true) (hs : fd.FlushBuffer = some fd') :
    fd'.buffer.length = 0 := by
  cases hw : fd.WriteToServer fd.buffer.start (load fd.buffer.buf 0 fd.buffer.length) with
  | none => simp [FlushBuffer, hdirty, hw] at hs
  | some r =>
    simp only [FlushBuffer, hdirty, hw, if_true, Option.some.injEq] at hs
    rw [← hs]

/-- A seek that sends the bytes of the write buffer leaves an empty one. -/
theorem seekTo_length (hdirty : fd.buffer.dirty = true) {newOff : ℕ} (hs : fd.seekTo newOff = some fd')
    (hclean : fd'.buffer.dirty = false) : fd'.buffer.length = 0 := by
  unfold seekTo at hs
  dsimp only at hs
  split_ifs at hs with hne
  · cases hf : fd.FlushBuffer with
    | none =>
      rw [hf] at hs
      cases hs
    | some fd₁ =>
      have hlen := FlushBuffer_length hdirty hf
      simp only [hf] at hs
      split_ifs at hs
      rw [← Option.some.inj hs]
      exact hlen
  · rw [← Option.some.inj hs, hdirty] at hclean
    cases hclean

theorem seekTo_cached (h : fd.buffer.dirty = false → fd.Cached) {newOff : ℕ} (hs : fd.seekTo newOff = some fd') :
    fd'.buffer.dirty = false → fd'.Cached := by
  intro hclean
  unfold seekTo at hs
  dsimp only at hs
  split_ifs at hs with hne
  · cases hf : fd.FlushBuffer with
    | none =>
      rw [hf] at hs
      cases hs
    | some fd₁ =>
      have hc := FlushBuffer_cached h hf
      simp only [hf, hc.clean, Bool.false_eq_true, if_false, Option.some.injEq] at hs
      subst hs
      exact hc.congr rfl fun c hc _ => hc
  · obtain rfl := Option.some.inj hs
    exact (h hclean).congr rfl fun c hc _ => hc

/-! ## Writes -/

@[simp] theorem SizeChunk_chunks : fd.SizeChunk.chunks = fd.chunks := by
  unfold SizeChunk
  split <;> rfl

@[simp] theorem SizeChunk_buffer : fd.SizeChunk.buffer = fd.buffer := by
  unfold SizeChunk
  split <;> rfl

theorem AllocChunk_kept {k : ℕ} (h : fd.chunks k = some c) : fd.AllocChunk.chunks k = some c := by
  simp only [AllocChunk, SizeChunk_chunks, setCurrChunk]
  split_ifs with hsome
  · exact h
  · rw [Function.update_of_ne]
    · exact h
    · rintro rfl
      exact hsome (Option.isSome_of_eq_some h)

/-- What a write does before it writes destroys no chunk. -/
theorem ready_kept {k : ℕ} (h : fd.chunks k = some c) : fd.ready.chunks k = some c ∧ fd.ready.buffer = fd.buffer := by
  have halloc : (DoAllocation.allocate fd).chunks k = some c ∧ (DoAllocation.allocate fd).buffer = fd.buffer := by
    unfold DoAllocation.allocate
    dsimp only
    split
    · exact ⟨AllocChunk_kept h, by simp [AllocChunk, setCurrChunk]⟩
    · exact ⟨AllocChunk_kept h, by simp [AllocChunk, setCurrChunk]⟩
  have hdo : fd.DoAllocation.chunks k = some c ∧ fd.DoAllocation.buffer = fd.buffer := by
    unfold DoAllocation
    split
    · split_ifs
      · exact ⟨h, rfl⟩
      · exact halloc
    · exact halloc
  unfold ready OpenChunk
  split_ifs
  · exact hdo
  · simpa using hdo

theorem ready_cached (h : Holds initial fd f) : fd.ready.buffer = fd.buffer ∧ (fd.Cached → fd.ready.Cached) := by
  obtain ⟨sent, hcore, -⟩ := h.sent
  obtain ⟨cattr, c, hready, -⟩ := ready_eq hcore
  have hb : fd.ready.buffer = fd.buffer := by
    rw [hready]
    rfl
  refine ⟨hb, fun hc => hc.congr hb fun c' hat _ => ?_⟩
  obtain ⟨hpos, hstored⟩ := chunkAt_nonneg hat
  rw [chunkAt_eq hpos]
  exact (ready_kept hstored).1

theorem WriteToBuffer_dirty {n : ℕ} (h : fd.WriteToBuffer buf = some (n, fd')) : fd'.buffer.dirty = true := by
  unfold WriteToBuffer at h
  dsimp only at h
  split at h
  · cases h
  rename_i fd₁ _
  split at h
  · cases h
  rename_i fd₂ _
  split_ifs at h
  all_goals
    obtain rfl := (Prod.mk.inj (Option.some.inj h)).2
    first
    | rfl
    | assumption

/-- A round of a write goes into the buffer, or past it. -/
theorem writeRound_cached (h : Holds initial fd f) (hr : fd.writeRound buf = some (n, fd')) :
    (fd'.buffer.dirty = true ∧ (buf.length < BUF_SIZE ∨ fd.buffer.dirty = true)) ∨
      (fd.buffer.dirty = false ∧ BUF_SIZE ≤ buf.length ∧
      n = min buf.length (Chunk.CHUNKSIZE - fd.currPos.fileOffset % Chunk.CHUNKSIZE) ∧ fd'.buffer = fd.buffer ∧
      (fd.Cached → Apart fd.buffer fd.currPos.fileOffset n → fd'.Cached)) := by
  obtain ⟨fd₁, hready, h₁, hconn, hpos₁⟩ := ready_holds h
  obtain ⟨hb, hcached⟩ := ready_cached h
  rw [hready] at hb hcached
  have hround : fd.writeRound buf = if buf.length < BUF_SIZE ∨ fd₁.buffer.dirty then fd₁.WriteToBuffer buf
      else fd₁.WriteToServer fd₁.currPos.chunkOffset buf := by
    rw [← hready]
    rfl
  rw [hround] at hr
  split_ifs at hr with hsmall
  · exact .inl ⟨WriteToBuffer_dirty hr, hb ▸ hsmall⟩
  · rw [not_or, not_lt, Bool.not_eq_true] at hsmall
    obtain ⟨sent, hcore, -⟩ := h₁.sent
    obtain ⟨chunk, c, hcur, hid, hc, hsize⟩ := hcore.current hconn
    have hoff := hcore.coherent.chunkOffset
    have hlt := hcore.coherent.offset_lt
    rw [hpos₁] at hoff hid
    rw [WriteToServer, DoLargeWriteToServer_eq buf hcur hc hlt.le, hoff] at hr
    obtain ⟨hn, rfl⟩ := Prod.mk.inj (Option.some.inj hr)
    refine .inr ⟨hb ▸ hsmall.2, hsmall.1, hn.symm, by rw [afterWrite_buffer, hb], fun hca hap => ?_⟩
    have hat : chunk.chunkId * Chunk.CHUNKSIZE + fd.currPos.fileOffset % Chunk.CHUNKSIZE = fd.currPos.fileOffset := by
      rw [hid, Nat.div_add_mod']
    refine (hcached hca).written afterWrite_buffer hc afterWrite_chunks ?_
    rw [hat, List.length_take, Nat.min_comm, hn, hb]
    exact hap

/-- How many of the `len` bytes from `pos` on are in the chunk of the last of them. -/
def lastPart (pos len : ℕ) : ℕ := pos + len - max pos ((pos + len - 1) / Chunk.CHUNKSIZE * Chunk.CHUNKSIZE)

theorem lastPart_drop (hlen : n < len) (hn : n = Chunk.CHUNKSIZE - pos % Chunk.CHUNKSIZE) :
    lastPart (pos + n) (len - n) = lastPart pos len := by
  have hsum : pos + n + (len - n) = pos + len := by omega
  unfold lastPart
  rw [hsum]
  simp only [Chunk.CHUNKSIZE] at hn ⊢
  omega

theorem lastPart_whole (hpos : 0 < len) (hlen : len ≤ Chunk.CHUNKSIZE - pos % Chunk.CHUNKSIZE) :
    lastPart pos len = len := by
  unfold lastPart
  simp only [Chunk.CHUNKSIZE] at hlen ⊢
  omega

/-- **A write keeps the cache right** unless its last bytes go past the buffer and it meets cached bytes. -/
theorem writeLoop_cached {fuel : ℕ} (h : Holds initial fd f) (hpos : fd.currPos.fileOffset = f.pos)
    (hlow : f.pos + buf.length < 2 ^ 31 * Chunk.CHUNKSIZE) (hcached : fd.buffer.dirty = false →
      (fd.Cached ∧ Apart fd.buffer f.pos buf.length) ∨ (buf ≠ [] ∧ lastPart f.pos buf.length < BUF_SIZE))
    (hloop : writeLoop fuel buf fd = some fd') : fd'.buffer.dirty = false → fd'.Cached := by
  induction fuel generalizing fd f buf with
  | zero =>
    unfold writeLoop at hloop
    split_ifs at hloop with hnil
    obtain rfl := Option.some.inj hloop
    exact fun hclean => ((hcached hclean).resolve_right fun hr => hr.1 hnil).1
  | succ fuel ih =>
    unfold writeLoop at hloop
    split_ifs at hloop with hnil
    · obtain rfl := Option.some.inj hloop
      exact fun hclean => ((hcached hclean).resolve_right fun hr => hr.1 hnil).1
    obtain ⟨n, fd₁, hround, hn, hle, h₁, hpos₁⟩ := writeRound_holds h hpos hnil
    have hlen : (buf.take n).length = n := by
      rw [List.length_take]
      omega
    obtain ⟨fd₂, hseek, h₂, hpos₂⟩ :=
      seekTo_holds h₁ (show fd₁.currPos.fileOffset + n < 2 ^ 31 * Chunk.CHUNKSIZE by omega)
    have hput : (f.put (buf.take n)).pos = f.pos + n := by
      rw [PlainFile.put, hlen]
    rw [hround] at hloop
    simp only [Seek_cur, hseek] at hloop
    have hdrop : (buf.drop n).length = buf.length - n := List.length_drop
    refine @ih fd₂ (f.put (buf.take n)) (buf.drop n) h₂ (by omega) (by omega) (fun hclean => ?_) hloop
    rw [hput, hdrop]
    rcases writeRound_cached h hround with ⟨hdirty, -⟩ | ⟨hclean₀, hbig, hn', hb, hkeep⟩
    · have hempty := seekTo_length hdirty hseek hclean
      exact .inl ⟨.of_empty hclean hempty, .of_empty hempty⟩
    rw [seekTo_clean (hb ▸ hclean₀)] at hseek
    obtain rfl := Option.some.inj hseek
    rw [hpos] at hn' hkeep
    rcases hcached hclean₀ with ⟨hc, hap⟩ | ⟨-, hlast⟩
    · refine .inl ⟨(hkeep hc (hap.mono hle)).congr rfl fun c hc _ => hc, ?_⟩
      show Apart fd₁.buffer _ _
      rw [hb]
      exact hap.drop n
    · -- the bytes that are left go into the buffer in the end
      have hlt : n < buf.length := by
        by_contra hge
        rw [lastPart_whole (by omega) (by omega)] at hlast
        omega
      refine .inr ⟨fun hdone => ?_, ?_⟩
      · rw [hdone] at hdrop
        simp only [List.length_nil] at hdrop
        omega
      · rw [lastPart_drop hlt (by omega)]
        exact hlast

/-! ## Reads -/

theorem Found.zero {chunks : ℕ → Option Stored} {p : ℕ} : Found chunks p 0 := by
  intro j hj hlt
  rcases hj.eq_or_lt with rfl | hj
  · rw [carried_self, Nat.div_add_mod'] at hlt
    exact absurd hlt (lt_irrefl _)
  · simp only [Chunk.CHUNKSIZE] at hj hlt
    omega

/-- A round of a read stays within the file. -/
theorem ReadChunk_le {mem : ℕ → UInt8} {first : List UInt8} (h : fd.Coherent) (hcached : fd.Cached)
    (hpref : fd.currPos.preferredServer = true) (hc : chunkAt fd.chunks fd.currPos.chunkNum = some c)
    (heof : fd.currPos.fileOffset < fd.fileSize) (hlow : fd.currPos.fileOffset < 2 ^ 31 * Chunk.CHUNKSIZE)
    (hwithin : ∀ n c, fd.chunks n = some c → 0 < c.size → n * Chunk.CHUNKSIZE + c.size ≤ fd.fileSize) (hn : 0 < n)
    (hread : fd.ReadChunk mem n = some (first, fd')) : fd.currPos.fileOffset + first.length ≤ fd.fileSize := by
  obtain ⟨bytes, b, hread', -, hne, -, hround⟩ := ReadChunk_eq h hcached hpref hc heof mem hn
  obtain ⟨rfl, -⟩ := Prod.mk.inj (Option.some.inj (hread.symm.trans hread'))
  have hnum : fd.currPos.chunkNum = (fd.currPos.fileOffset / Chunk.CHUNKSIZE : ℕ) := by
    rw [h.chunkNum, toInt32_of_lt (Nat.div_lt_of_lt_mul (by rw [Nat.mul_comm]; exact hlow))]
  have hstored := (chunkAt_nonneg hc).2
  rw [hnum, Int.toNat_natCast] at hstored
  rcases hround with ⟨hin, -⟩ | ⟨-, hzeros⟩
  · have hlen := List.length_pos_iff.2 hne
    have hle := hwithin _ _ hstored (by omega)
    rw [h.chunkOffset] at hin
    have hdiv := Nat.div_add_mod' fd.currPos.fileOffset Chunk.CHUNKSIZE
    omega
  · rw [hzeros, List.length_replicate]
    omega

/-- A read that comes to no missing chunk goes on to the end of the file. -/
theorem readLoop_all {fuel nread nleft : ℕ} {mem : ℕ → UInt8} (h : fd.Coherent) (hcached : fd.Cached)
    (hfuel : nleft ≤ fuel)
    (hwithin : ∀ n c, fd.chunks n = some c → 0 < c.size → n * Chunk.CHUNKSIZE + c.size ≤ fd.fileSize)
    (hlow : fd.currPos.fileOffset + min nleft (fd.fileSize - fd.currPos.fileOffset) < 2 ^ 31 * Chunk.CHUNKSIZE)
    (hfound : Found fd.chunks fd.currPos.fileOffset (min nleft (fd.fileSize - fd.currPos.fileOffset))) :
    ∃ bytes fd', readLoop mem fuel nread nleft fd = some (bytes, fd') ∧
      bytes.length = min nleft (fd.fileSize - fd.currPos.fileOffset) := by
  induction fuel generalizing nread nleft fd with
  | zero =>
    obtain rfl : nleft = 0 := by omega
    exact ⟨[], fd, rfl, by simp⟩
  | succ fuel ih =>
    rcases Nat.eq_zero_or_pos nleft with rfl | hpos
    · exact ⟨[], fd, by rw [readLoop, if_pos rfl], by simp⟩
    cases hc : chunkAt fd.chunks fd.currPos.chunkNum with
    | none =>
      have hnone : seen fd.chunks (fd.currPos.fileOffset / Chunk.CHUNKSIZE) = none := by rwa [seen, ← h.chunkNum]
      have hzero : min nleft (fd.fileSize - fd.currPos.fileOffset) = 0 := by
        by_contra hne
        have hsome := hfound _ le_rfl (by rw [carried_self, Nat.div_add_mod']; omega)
        rw [hnone] at hsome
        cases hsome
      refine ⟨[], fd, ?_, hzero.symm⟩
      rw [readLoop, if_neg hpos.ne', IsChunkReadable_none h hc]
      simp
    | some c =>
      obtain ⟨cattr, hreadable, hconnect⟩ := IsChunkReadable_eq h hc
      have hcached' : (fd.connect cattr).Cached := ⟨hcached.clean, hcached.copied⟩
      rcases Nat.lt_or_ge fd.currPos.fileOffset fd.fileSize with heof | heof
      · obtain ⟨first, b, p', hread, hb, hround⟩ := ReadChunk_round hconnect hcached' rfl hc heof
          (fun i => mem (nread + i)) hpos
        have hlow' : fd.currPos.fileOffset < 2 ^ 31 * Chunk.CHUNKSIZE := by omega
        have hle₁ := ReadChunk_le hconnect hcached' rfl hc heof hlow' hwithin hpos hread
        have hin : fd.currPos.fileOffset + first.length ≤ fd.fileSize := hle₁
        set fd₂ : Fd := { fd.connect cattr with buffer := b } with hfd₂
        have hcoherent : fd₂.Coherent :=
          ⟨hconnect.chunkNum, hconnect.chunkOffset, hconnect.known, hconnect.sized, hconnect.bounded⟩
        have hfirst := hround.pos
        have hle := hround.length_le
        have hseen : seen fd.chunks (fd.currPos.fileOffset / Chunk.CHUNKSIZE) = some c := by rwa [seen, ← h.chunkNum]
        have hleft : min (nleft - first.length) (fd.fileSize - (fd.currPos.fileOffset + first.length)) =
            min nleft (fd.fileSize - fd.currPos.fileOffset) - first.length := by omega
        have hfound' : Found fd.chunks (fd.currPos.fileOffset + first.length)
            (min nleft (fd.fileSize - fd.currPos.fileOffset) - first.length) := by
          rcases hround.stop with hstop | hstop
          · have hfollows : Follows fd.chunks fd.currPos.fileOffset (fd.currPos.fileOffset + first.length) :=
              hstop ▸ hround.follows
            exact (hfollows.found_iff hseen (by omega)).1 hfound
          · have hzero : min nleft (fd.fileSize - fd.currPos.fileOffset) - first.length = 0 := by
              rcases hstop with hstop | hstop
              · omega
              · have hend : fd.currPos.fileOffset + first.length = fd.fileSize := hstop
                omega
            rw [hzero]
            exact Found.zero
        obtain ⟨rest, fd', hrest, hlen⟩ := @ih (fd₂.moved (fd.currPos.fileOffset + first.length))
          (nread + first.length) (nleft - first.length)
          (hcoherent.moved (fd.currPos.fileOffset + first.length)) ⟨hb.clean, hb.copied⟩ (by omega) hwithin
          (by
            show fd.currPos.fileOffset + first.length + min (nleft - first.length)
              (fd.fileSize - (fd.currPos.fileOffset + first.length)) < _
            omega)
          (by
            show Found fd.chunks (fd.currPos.fileOffset + first.length) (min (nleft - first.length)
              (fd.fileSize - (fd.currPos.fileOffset + first.length)))
            rw [hleft]
            exact hfound')
        have hseek := (Seek_cur fd₂ first.length).trans (seekTo_clean hb.clean _)
        refine ⟨first ++ rest, fd', readLoop_round hpos hreadable heof hread hseek hrest, ?_⟩
        have hlen' : rest.length = min (nleft - first.length)
          (fd.fileSize - (fd.currPos.fileOffset + first.length)) := hlen
        rw [List.length_append, hlen']
        omega
      · refine ⟨[], fd.connect cattr, ?_, ?_⟩
        · rw [readLoop, if_neg hpos.ne', hreadable]
          simp [connect, heof]
        · simp only [List.length_nil]
          omega

end Fd

/-! ## Runs -/

/-- The calls on a descriptor, with the memory that a read is given. -/
inductive Access
  | read (buf : ℕ → UInt8) (n : ℕ)
  | call (c : Call)

/-- The size of a file of `size` bytes after the stores `w`. -/
def extent (size : ℕ) (w : List (ℕ × UInt8)) : ℕ := w.foldl (fun size x => max size (x.1 + 1)) size

theorem extent_append (size : ℕ) (v w : List (ℕ × UInt8)) : extent size (v ++ w) = extent (extent size v) w :=
  List.foldl_append

theorem extent_cells (size pos : ℕ) (d : List UInt8) :
    extent size (cells pos d) = if d = [] then size else max size (pos + d.length) := by
  induction d generalizing size pos with
  | nil => rfl
  | cons b d ih =>
    have hcells : cells pos (b :: d) = (pos, b) :: cells (pos + 1) d := cells_append (d := [b]) (e := d)
    have hcons : extent size ((pos, b) :: cells (pos + 1) d) = extent (max size (pos + 1)) (cells (pos + 1) d) := rfl
    rw [hcells, hcons, ih, if_neg (List.cons_ne_nil b d), List.length_cons]
    split_ifs with hd
    · rw [hd]
      rfl
    · omega

namespace Fd

variable {fd : Fd} {initial : ℕ → UInt8} {f : PlainFile} {size n : ℕ} {written : List (ℕ × UInt8)} {a : Access}

def access (fd : Fd) : Access → Option Fd
  | .read buf n => (fd.Read buf n).map (·.2)
  | .call c => fd.call c

/-- The bytes that a call writes, with their positions. -/
def writes (fd : Fd) : Access → List (ℕ × UInt8)
  | .read _ _ => []
  | .call (.write d) => if fd.openMode = .rdonly then [] else cells fd.currPos.fileOffset d
  | .call (.seek _ _) => []
  | .call .sync => []

/-- A run, with all that it has written. -/
def accesses (fd : Fd) : List Access → Option (List (ℕ × UInt8) × Fd)
  | [] => some ([], fd)
  | a :: as => (fd.access a).bind fun fd' => (fd'.accesses as).map fun r => (fd.writes a ++ r.1, r.2)

/-- The position that a seek leads to. -/
def seekOff (fd : Fd) (offset : ℤ) : Whence → ℤ
  | .SEEK_SET => offset
  | .SEEK_CUR => fd.currPos.fileOffset + offset
  | .SEEK_END => fd.fileSize + offset

/-- A read, of the descriptor `fd'` whose write buffer has been sent, finds no hole that it gets wrong. -/
def ClearRead (fd' : Fd) (n : ℕ) : Prop :=
  fd'.currPos.fileOffset + min n (fd'.fileSize - fd'.currPos.fileOffset) < 2 ^ 31 * Chunk.CHUNKSIZE ∧
    Clear fd'.chunks fd'.currPos.fileOffset (min n (fd'.fileSize - fd'.currPos.fileOffset))

/-- The position stays where the number of a chunk fits into 32 bits; a write whose last bytes go past the buffer meets
no cached bytes; and a read is clear. -/
def Coheres (fd : Fd) : Access → Prop
  | .read _ n => fd.openMode ≠ .wronly → ∀ fd', fd.FlushBuffer = some fd' → fd'.ClearRead n
  | .call (.write d) => fd.openMode ≠ .rdonly → fd.currPos.fileOffset + d.length < 2 ^ 31 * Chunk.CHUNKSIZE ∧
      (fd.buffer.dirty = false → BUF_SIZE ≤ lastPart fd.currPos.fileOffset d.length →
        Apart fd.buffer fd.currPos.fileOffset d.length)
  | .call (.seek offset whence) => 0 ≤ fd.seekOff offset whence ∧
      fd.seekOff offset whence < (2 ^ 31 * Chunk.CHUNKSIZE : ℕ)
  | .call .sync => True

/-- The condition along a run. -/
def CoheresAll (fd : Fd) : List Access → Prop
  | [] => True
  | a :: as => fd.Coheres a ∧ ∀ fd', fd.access a = some fd' → fd'.CoheresAll as

/-- The descriptor and the chunks hold what has been written, and the cache is right. -/
structure Current (initial : ℕ → UInt8) (size : ℕ) (written : List (ℕ × UInt8)) (fd : Fd) : Prop where
  holds : Holds initial fd ⟨overwrite initial written, extent size written, fd.currPos.fileOffset, fd.openMode, written⟩
  cached : fd.buffer.dirty = false → fd.Cached

theorem Current.of_holds (h : Holds initial fd f) (hsize : f.size = extent size f.written)
    (hc : fd.buffer.dirty = false → fd.Cached) : Current initial size f.written fd :=
  ⟨⟨h.sent, h.pending, hsize ▸ h.size, rfl, rfl⟩, hc⟩

/-- A descriptor before a run. -/
theorem Current.start (h : fd.Coherent) (hcached : fd.Cached)
    (hlow : fd.currPos.fileOffset < 2 ^ 31 * Chunk.CHUNKSIZE)
    (hwithin : ∀ n c, fd.chunks n = some c → 0 < c.size → n * Chunk.CHUNKSIZE + c.size ≤ fd.fileSize) :
    Current (content fd.chunks) fd.fileSize [] fd := by
  refine ⟨⟨⟨[], ⟨h, hlow, hwithin, rfl⟩, ?_⟩, fun hdirty => ?_, ?_, rfl, rfl⟩, fun _ => hcached⟩
  · simp [pendingBytes, hcached.clean]
  · rw [hcached.clean] at hdirty
    cases hdirty
  · simp [pendingEnd, hcached.clean, extent]

/-- A descriptor whose write buffer is sent. -/
theorem Current.flush (h : Current initial size written fd) : ∃ fd', fd.FlushBuffer = some fd' ∧
    Current initial size written fd' ∧ fd'.buffer.dirty = false ∧ fd'.currPos = fd.currPos ∧
    fd'.openMode = fd.openMode := by
  obtain ⟨fd', hflush, hholds, hclean, hpos⟩ := FlushBuffer_holds h.holds
  have hc := FlushBuffer_cached h.cached hflush
  exact ⟨fd', hflush, .of_holds hholds rfl fun _ => hc, hclean, hpos, hholds.mode⟩

theorem Current.fileSize (h : Current initial size written fd) (hclean : fd.buffer.dirty = false) :
    fd.fileSize = extent size written := by
  have hsize := h.holds.size
  rw [pendingEnd, hclean] at hsize
  simpa using hsize.symm

/-- **A clear read returns what has been written.** -/
theorem Current.readLoop (h : Current initial size written fd) (hclean : fd.buffer.dirty = false) (mem : ℕ → UInt8)
    (hclear : fd.ClearRead n) : ∃ fd', readLoop mem n 0 n fd = some (load (overwrite initial written)
      fd.currPos.fileOffset (min n (extent size written - fd.currPos.fileOffset)), fd') ∧
      Current initial size written fd' := by
  obtain ⟨sent, hcore, hwritten⟩ := h.holds.sent
  obtain ⟨hlow, hholes⟩ := hclear
  have hc := h.cached hclean
  have hsize := h.fileSize hclean
  rw [pendingBytes, hclean] at hwritten
  obtain rfl : written = sent := by simpa using hwritten
  obtain ⟨bytes, fd', hloop, hlen⟩ := @readLoop_all fd n 0 n mem hcore.coherent hc le_rfl hcore.within hlow
    hholes.found
  obtain ⟨bytes', fd'', hloop', hend⟩ := @readLoop_eq fd mem n 0 n hcore.coherent hc le_rfl
  obtain ⟨rfl, rfl⟩ := Prod.mk.inj (Option.some.inj (hloop.symm.trans hloop'))
  have hbytes : bytes = load (overwrite initial written) fd.currPos.fileOffset
      (min n (fd.fileSize - fd.currPos.fileOffset)) := by
    rw [hend.read, hlen, (clear_iff.1 hholes).2, hcore.content]
  have hdirty := hend.cached.clean
  have hcore' : Core initial written fd' := by
    refine ⟨hend.coherent, ?_, ?_, ?_⟩
    · rw [hend.position, hlen]
      exact hlow
    · rw [hend.chunks, hend.fileSize]
      exact hcore.within
    · rw [hend.chunks]
      exact hcore.content
  refine ⟨fd', ?_, ⟨⟨⟨written, hcore', ?_⟩, fun hd => ?_, ?_, rfl, rfl⟩, fun _ => hend.cached⟩⟩
  · rw [hloop, hbytes, hsize]
  · simp [pendingBytes, hdirty]
  · rw [hdirty] at hd
    cases hd
  · rw [pendingEnd, hdirty, hend.fileSize, hsize]
    simp

theorem Current.read (h : Current initial size written fd) (hmode : fd.openMode ≠ .wronly) (mem : ℕ → UInt8)
    (hclear : ∀ fd', fd.FlushBuffer = some fd' → fd'.ClearRead n) : ∃ fd', fd.Read mem n =
      some (load (overwrite initial written) fd.currPos.fileOffset
        (min n (extent size written - fd.currPos.fileOffset)), fd') ∧ Current initial size written fd' := by
  obtain ⟨fd₁, hflush, h₁, hclean, hpos, -⟩ := h.flush
  obtain ⟨fd', hloop, h'⟩ := h₁.readLoop hclean mem (hclear fd₁ hflush)
  rw [hpos] at hloop
  refine ⟨fd', ?_, h'⟩
  rw [Read, if_neg hmode, hflush]
  exact hloop

theorem Current.write (h : Current initial size written fd) {d : List UInt8} (hmode : fd.openMode ≠ .rdonly)
    (hcoh : fd.Coheres (.call (.write d))) : ∃ fd', writeLoop d.length d fd = some fd' ∧
      Current initial size (written ++ cells fd.currPos.fileOffset d) fd' := by
  obtain ⟨hlow, hapart⟩ := hcoh hmode
  obtain ⟨fd', hloop, hholds, -⟩ := writeLoop_holds h.holds rfl le_rfl hlow
  refine ⟨fd', hloop, .of_holds hholds ?_ (writeLoop_cached h.holds rfl hlow (fun hclean => ?_) hloop)⟩
  · rw [PlainFile.put, extent_append, extent_cells]
  · rcases Nat.lt_or_ge (lastPart fd.currPos.fileOffset d.length) BUF_SIZE with hlt | hge
    · rcases eq_or_ne d [] with rfl | hd
      · exact .inl ⟨h.cached hclean, fun i _ j hj => absurd hj (Nat.not_lt_zero j)⟩
      · exact .inr ⟨hd, hlt⟩
    · exact .inl ⟨h.cached hclean, hapart hclean hge⟩

/-- What one call preserves. -/
theorem Current.access (h : Current initial size written fd) (hcoh : fd.Coheres a) :
    ∃ fd', fd.access a = some fd' ∧ Current initial size (written ++ fd.writes a) fd' := by
  cases a with
  | read mem n =>
    rw [writes, List.append_nil]
    by_cases hmode : fd.openMode = .wronly
    · exact ⟨fd, by simp [Fd.access, Read, hmode], h⟩
    · obtain ⟨fd', hread, h'⟩ := h.read hmode mem (hcoh hmode)
      exact ⟨fd', by rw [Fd.access, hread]; rfl, h'⟩
  | call c =>
    cases c with
    | write d =>
      by_cases hmode : fd.openMode = .rdonly
      · refine ⟨fd, by simp [Fd.access, call, Write, hmode], ?_⟩
        rw [writes, if_pos hmode, List.append_nil]
        exact h
      · obtain ⟨fd', hloop, h'⟩ := h.write hmode hcoh
        refine ⟨fd', by simp [Fd.access, call, Write, hmode, hloop], ?_⟩
        rw [writes, if_neg hmode]
        exact h'
    | seek offset whence =>
      obtain ⟨hneg, hlow⟩ := hcoh
      have hseek : fd.Seek offset whence = fd.seekTo (fd.seekOff offset whence).toNat := by
        cases whence <;> exact if_neg (not_lt.2 hneg)
      obtain ⟨fd', hto, hholds, -⟩ := seekTo_holds h.holds ((Int.toNat_lt hneg).2 hlow)
      refine ⟨fd', hseek.trans hto, ?_⟩
      rw [writes, List.append_nil]
      exact .of_holds hholds rfl (seekTo_cached h.cached hto)
    | sync =>
      obtain ⟨fd', hflush, h', -⟩ := h.flush
      refine ⟨fd', hflush, ?_⟩
      rw [writes, List.append_nil]
      exact h'

theorem Current.accesses {as : List Access} (h : Current initial size written fd) (hcoh : fd.CoheresAll as) :
    ∃ w fd', fd.accesses as = some (w, fd') ∧ Current initial size (written ++ w) fd' := by
  induction as generalizing fd written with
  | nil => exact ⟨[], fd, rfl, by rwa [List.append_nil]⟩
  | cons a as ih =>
    obtain ⟨fd₁, haccess, h₁⟩ := h.access hcoh.1
    obtain ⟨w, fd', hrun, h'⟩ := ih h₁ (hcoh.2 fd₁ haccess)
    refine ⟨fd.writes a ++ w, fd', ?_, ?_⟩
    · rw [Fd.accesses, haccess, Option.bind_some, hrun]
      rfl
    · rwa [← List.append_assoc]

/-- A write that goes past the buffer at once leaves the cached bytes as they are. -/
theorem writeLoop_past {d : List UInt8} (h : Holds initial fd f) (hpos : fd.currPos.fileOffset = f.pos)
    (hclean : fd.buffer.dirty = false) (hbig : BUF_SIZE ≤ d.length)
    (hin : d.length ≤ Chunk.CHUNKSIZE - f.pos % Chunk.CHUNKSIZE) (hnext : f.pos + d.length < 2 ^ 31 * Chunk.CHUNKSIZE) :
    ∃ fd', writeLoop d.length d fd = some fd' ∧ Holds initial fd' (f.put d) ∧ fd'.buffer = fd.buffer := by
  have hbuf : 0 < BUF_SIZE := by decide
  have hne : d ≠ [] := List.length_pos_iff.1 (hbuf.trans_le hbig)
  obtain ⟨fd', hloop, hholds, -⟩ := writeLoop_holds h hpos le_rfl hnext
  refine ⟨fd', hloop, hholds, ?_⟩
  obtain ⟨n, fd₁, hround, -, -, -, hpos₁⟩ := writeRound_holds h hpos hne
  obtain ⟨m, hm⟩ := Nat.exists_eq_succ_of_ne_zero (List.length_pos_iff.2 hne).ne'
  rw [hm, writeLoop, if_neg hne, hround] at hloop
  rcases writeRound_cached h hround with ⟨-, hsmall | hdirty⟩ | ⟨-, -, hn, hb, -⟩
  · exact absurd hsmall (not_lt.2 hbig)
  · rw [hclean] at hdirty
    cases hdirty
  · rw [hpos, min_eq_left hin] at hn
    subst hn
    simp only [Seek_cur, seekTo_clean (hb ▸ hclean), List.drop_length] at hloop
    have hdone : writeLoop m [] (fd₁.moved (fd₁.currPos.fileOffset + d.length)) =
        some (fd₁.moved (fd₁.currPos.fileOffset + d.length)) := by cases m <;> rfl
    obtain rfl := Option.some.inj (hdone.symm.trans hloop)
    exact hb

/-- A read of bytes that are cached does not ask a chunk server. -/
theorem Read_copied (h : fd.Coherent) (hmode : fd.openMode ≠ .wronly) (hclean : fd.buffer.dirty = false)
    (hc : chunkAt fd.chunks fd.currPos.chunkNum = some c) (heof : fd.currPos.fileOffset < fd.fileSize) (hn : 0 < n)
    (hcopied : (fd.CopyFromChunkBuf n).length = n) (mem : ℕ → UInt8) :
    (fd.Read mem n).map (·.1) = some (fd.CopyFromChunkBuf n) := by
  obtain ⟨cattr, hreadable, -⟩ := IsChunkReadable_eq h hc
  have hsame : (fd.connect cattr).CopyFromChunkBuf n = fd.CopyFromChunkBuf n := rfl
  have hne : fd.CopyFromChunkBuf n ≠ [] := List.length_pos_iff.1 (by omega)
  have heof' : (fd.connect cattr).currPos.fileOffset < (fd.connect cattr).fileSize := heof
  have hclean' : (fd.connect cattr).buffer.dirty = false := hclean
  have hread : (fd.connect cattr).ReadChunk (fun i => mem (0 + i)) n =
      some (fd.CopyFromChunkBuf n, fd.connect cattr) := by
    rw [ReadChunk, if_pos heof', ← hsame]
    exact if_pos hne
  have hdone : ∀ k fd', readLoop mem k (0 + n) 0 fd' = some ([], fd') := by
    intro k fd'
    cases k <;> rfl
  have hseek := (Seek_cur (fd.connect cattr) n).trans (seekTo_clean hclean' _)
  obtain ⟨m, hm⟩ := Nat.exists_eq_succ_of_ne_zero hn.ne'
  rw [Read, if_neg hmode, FlushBuffer, if_neg (by rw [hclean]; exact Bool.false_ne_true)]
  generalize fd.CopyFromChunkBuf n = first at hcopied hread ⊢
  have hloop : Fd.readLoop mem (m + 1) 0 n fd = some (first ++ [], _) :=
    readLoop_round hn hreadable heof' hread (hcopied.symm ▸ hseek) (by
      rw [hcopied, Nat.sub_self]
      exact hdone m _)
  have hfuel : Fd.readLoop mem n 0 n fd = Fd.readLoop mem (m + 1) 0 n fd := by rw [hm]
  show (Fd.readLoop mem n 0 n fd).map _ = _
  rw [hfuel, hloop, List.append_nil]
  rfl

/-- A cached byte that is written over past the buffer is read again. -/
theorem Read_stale {b : UInt8} {d : List UInt8} (h : Holds initial fd f) (hpos : fd.currPos.fileOffset = f.pos)
    (hmode : fd.openMode ≠ .wronly) (hclean : fd.buffer.dirty = false) (hcopied : (fd.CopyFromChunkBuf 1).length = 1)
    (hb : b ≠ 0) (hbig : BUF_SIZE ≤ (b :: d).length)
    (hin : (b :: d).length ≤ Chunk.CHUNKSIZE - f.pos % Chunk.CHUNKSIZE)
    (hnext : f.pos + (b :: d).length < 2 ^ 31 * Chunk.CHUNKSIZE) (mem : ℕ → UInt8) :
    ∃ fd', writeLoop (b :: d).length (b :: d) fd = some fd' ∧ fd'.seekTo f.pos = some (fd'.moved f.pos) ∧
      ((fd'.moved f.pos).Read mem 1).map (·.1) = some (fd.CopyFromChunkBuf 1) := by
  obtain ⟨fd', hwrite, hholds, hbuf⟩ := writeLoop_past h hpos hclean hbig hin hnext
  have hclean' : fd'.buffer.dirty = false := by rw [hbuf, hclean]
  have hseek := seekTo_clean hclean' f.pos
  obtain ⟨fd'', hseek', h', -⟩ := seekTo_holds hholds (show f.pos < 2 ^ 31 * Chunk.CHUNKSIZE by omega)
  obtain rfl := Option.some.inj (hseek.symm.trans hseek')
  obtain ⟨sent, hcore, hwritten⟩ := h'.sent
  have hcopy : (fd'.moved f.pos).CopyFromChunkBuf 1 = fd.CopyFromChunkBuf 1 := by
    obtain ⟨_, hcore₀, _⟩ := h.sent
    simp only [CopyFromChunkBuf, moved, hbuf, hcore₀.coherent.chunkNum, hcore₀.coherent.chunkOffset, hpos]
  refine ⟨fd', hwrite, hseek, ?_⟩
  have hsent : sent = f.written ++ cells f.pos (b :: d) := by
    have hnone : (fd'.moved f.pos).pendingBytes = [] := if_neg (by rw [moved, hclean']; exact Bool.false_ne_true)
    rw [hnone, List.append_nil] at hwritten
    exact hwritten.symm
  have hbyte : content fd'.chunks f.pos = b := by
    refine (congrFun hcore.content f.pos).trans ?_
    rw [hsent, overwrite_append, overwrite_cells]
    exact (store_of_mem le_rfl (by simp)).trans (by simp)
  have hsize : f.pos < fd'.fileSize := by
    have hmax := h'.size
    have hnone : (fd'.moved f.pos).pendingEnd = 0 := if_neg (by rw [moved, hclean']; exact Bool.false_ne_true)
    rw [hnone, Nat.max_zero, PlainFile.put] at hmax
    have hlen : 0 < (b :: d).length := Nat.zero_lt_succ _
    simp only [List.cons_ne_nil, if_false] at hmax
    have hsame : (fd'.moved f.pos).fileSize = fd'.fileSize := rfl
    omega
  cases hchunk : fd'.chunks (f.pos / Chunk.CHUNKSIZE) with
  | none =>
    rw [content, hchunk] at hbyte
    exact absurd hbyte.symm hb
  | some c =>
    have hc : chunkAt (fd'.moved f.pos).chunks (fd'.moved f.pos).currPos.chunkNum = some c := by
      rw [hcore.chunkNum_eq, chunkAt_eq (Int.natCast_nonneg _), Int.toNat_natCast]
      exact hchunk
    have hmode' : (fd'.moved f.pos).openMode ≠ .wronly := by
      rw [h'.mode]
      exact h.mode ▸ hmode
    rw [← hcopy]
    exact Read_copied hcore.coherent hmode' hclean' hc hsize Nat.one_pos (by rw [hcopy, hcopied]) mem

end Fd

/-- **A read returns what has been written last.** In every run whose calls meet the condition, and after it, a read
that meets it returns at each position the byte that has been written there last, or the one that the file held. -/
theorem accesses_read {fd : Fd} {as : List Access} (h : fd.Coherent) (hcached : fd.Cached)
    (hlow : fd.currPos.fileOffset < 2 ^ 31 * Chunk.CHUNKSIZE)
    (hwithin : ∀ n c, fd.chunks n = some c → 0 < c.size → n * Chunk.CHUNKSIZE + c.size ≤ fd.fileSize)
    (hcoh : fd.CoheresAll as) : ∃ written fd', fd.accesses as = some (written, fd') ∧
      ∀ mem n, fd'.openMode ≠ .wronly → fd'.Coheres (.read mem n) → ∃ fd'', fd'.Read mem n =
        some (load (overwrite (content fd.chunks) written) fd'.currPos.fileOffset
          (min n (extent fd.fileSize written - fd'.currPos.fileOffset)), fd'') := by
  obtain ⟨written, fd', hrun, hcurrent⟩ := (Fd.Current.start h hcached hlow hwithin).accesses hcoh
  refine ⟨written, fd', hrun, fun mem n hmode hclear => ?_⟩
  obtain ⟨fd'', hread, -⟩ := hcurrent.read hmode mem (hclear hmode)
  exact ⟨fd'', hread⟩

/-- A byte is written and read. -/
theorem accesses_read_emptyFile : ∃ fd fd',
    emptyFile.accesses [.call (.write [7]), .call (.seek 0 .SEEK_SET)] = some ([(0, 7)], fd) ∧
      fd.Read (fun _ => 0) 5 = some ([7], fd') := by
  have hwrite : emptyFile.Coheres (.call (.write [7])) :=
    fun _ => ⟨by decide, fun _ hlast => absurd hlast (by decide)⟩
  have hseek : ∀ fd : Fd, fd.Coheres (.call (.seek 0 .SEEK_SET)) := fun _ =>
    ⟨le_rfl, show (0 : ℤ) < (2 ^ 31 * Chunk.CHUNKSIZE : ℕ) by decide⟩
  have hcalls : emptyFile.CoheresAll [.call (.write [7]), .call (.seek 0 .SEEK_SET)] :=
    ⟨hwrite, fun fd' _ => ⟨hseek fd', fun _ _ => trivial⟩⟩
  obtain ⟨written, fd, hrun, hread⟩ :=
    accesses_read emptyFile_coherent (Fd.Cached.of_empty rfl rfl) (by decide) (fun n c hc => by cases hc) hcalls
  -- where the calls have led
  have hled : (emptyFile.accesses [.call (.write [7]), .call (.seek 0 .SEEK_SET)]).map (fun r =>
      (r.1, r.2.openMode, r.2.currPos.fileOffset)) = some ([(0, 7)], .rdwr, 0) := by
    decide +kernel
  have hsent : (emptyFile.accesses [.call (.write [7]), .call (.seek 0 .SEEK_SET)]).map (fun r =>
      r.2.FlushBuffer.map fun fd' => (fd'.currPos.fileOffset, fd'.fileSize, (seen fd'.chunks 0).map Stored.size)) =
      some (some (0, 1, some 1)) := by
    decide +kernel
  rw [hrun, Option.map_some, Option.some.injEq] at hled hsent
  simp only [Prod.mk.injEq] at hled
  obtain ⟨rfl, hmode, hpos⟩ := hled
  have hcoh : fd.Coheres (.read (fun _ => 0) 5) := by
    intro _ fd' hflush
    rw [hflush, Option.map_some, Option.some.injEq] at hsent
    simp only [Prod.mk.injEq] at hsent
    obtain ⟨hpos', hsize, hchunk⟩ := hsent
    obtain ⟨c, hc, -⟩ := Option.map_eq_some_iff.1 hchunk
    rw [Fd.ClearRead, hpos', hsize]
    refine ⟨by decide, clear_of_within hc (Nat.zero_le _) (fun j _ hj => ?_) (by decide)⟩
    have hj' : j * Chunk.CHUNKSIZE < 1 := hj
    simp only [Chunk.CHUNKSIZE] at hj'
    obtain rfl : j = 0 := by omega
    rw [hc]
    rfl
  obtain ⟨fd', hfd'⟩ := hread (fun _ => 0) 5 (by rw [hmode]; decide) hcoh
  refine ⟨fd, fd', hrun, hfd'.trans ?_⟩
  rw [hpos]
  rfl

/-- A file of one byte. -/
def oneByte : Fd where
  openMode := .rdwr
  fileSize := 1
  chunks n := if n = 0 then some (Stored.empty.write 0 [7]) else none

theorem oneByte_opened : oneByte.Coherent ∧ oneByte.Cached := by
  refine Fd.coherent_opened fun n c hc => ?_
  split_ifs at hc
  cases hc
  decide

theorem oneByte_within (n : ℕ) (c : Stored) (hc : oneByte.chunks n = some c) (_ : 0 < c.size) :
    n * Chunk.CHUNKSIZE + c.size ≤ oneByte.fileSize := by
  simp only [oneByte] at hc
  split_ifs at hc with hn
  cases hc
  rw [hn]
  decide

theorem oneByte_clear : oneByte.ClearRead 1 := by
  refine ⟨by decide, clear_of_within (show seen oneByte.chunks 0 = some _ from rfl) (Nat.zero_le _) (fun j _ hj => ?_)
    (by decide)⟩
  have hj' : j * Chunk.CHUNKSIZE < 1 := hj
  simp only [Chunk.CHUNKSIZE] at hj'
  obtain rfl : j = 0 := by omega
  rfl

/-- The byte is read, written over past the buffer, and read again. -/
theorem oneByte_stale {b : UInt8} {d : List UInt8} (hb : b ≠ 0) (hbig : BUF_SIZE ≤ (b :: d).length)
    (hin : (b :: d).length ≤ Chunk.CHUNKSIZE) : ∃ fd, oneByte.accesses [.read (fun _ => 0) 1, .call (.seek 0 .SEEK_SET),
      .call (.write (b :: d)), .call (.seek 0 .SEEK_SET)] = some (cells 0 (b :: d), fd) ∧
      fd.currPos.fileOffset = 0 ∧ (fd.Read (fun _ => 0) 1).map (·.1) = some [7] := by
  have hcoh : oneByte.Coheres (.read (fun _ => 0) 1) := by
    intro _ fd' hflush
    obtain rfl := Option.some.inj hflush
    exact oneByte_clear
  have hstart := Fd.Current.start oneByte_opened.1 oneByte_opened.2 (by decide) oneByte_within
  obtain ⟨fd₁, hread, h₁⟩ := hstart.access hcoh
  have hcopy : (oneByte.access (.read (fun _ => 0) 1)).map (fun fd => (fd.buffer.dirty, fd.openMode,
      (fd.moved 0).CopyFromChunkBuf 1)) = some (false, .rdwr, [7]) := by
    decide +kernel
  rw [hread, Option.map_some, Option.some.injEq] at hcopy
  simp only [Prod.mk.injEq] at hcopy
  obtain ⟨hclean, hmode, hbyte⟩ := hcopy
  have hseek := Fd.seekTo_clean hclean 0
  obtain ⟨fd₂, hseek', h₂, hpos⟩ := Fd.seekTo_holds h₁.holds (show 0 < 2 ^ 31 * Chunk.CHUNKSIZE by decide)
  obtain rfl := Option.some.inj (hseek.symm.trans hseek')
  have hmode₂ : (fd₁.moved 0).openMode = .rdwr := hmode
  obtain ⟨fd₃, hwrite, hback, hstale⟩ := Fd.Read_stale (h₂.reposition 0) hpos (by rw [hmode₂]; decide) hclean
    (by rw [hbyte]; rfl) hb hbig hin (by simp only [Chunk.CHUNKSIZE] at hin ⊢; omega) fun _ => 0
  have hfirst : fd₁.access (.call (.seek 0 .SEEK_SET)) = some (fd₁.moved 0) := hseek
  have hlast : fd₃.access (.call (.seek 0 .SEEK_SET)) = some (fd₃.moved 0) := hback
  have hrw : ¬ (fd₁.moved 0).openMode = .rdonly := by
    rw [hmode₂]
    decide
  have hpast : (fd₁.moved 0).access (.call (.write (b :: d))) = some fd₃ := by
    simp only [Fd.access, Fd.call, Fd.Write, if_neg hrw, hwrite, Option.map_some]
  refine ⟨fd₃.moved 0, ?_, rfl, by rw [hstale, hbyte]⟩
  simp only [Fd.accesses, hread, hfirst, hpast, hlast, Fd.writes, if_neg hrw, hpos, Option.bind_some, Option.map_some,
    List.nil_append, List.append_nil]

/-- Four megabytes that are written over the byte. -/
theorem accesses_stale : ∃ written fd, oneByte.accesses [.read (fun _ => 0) 1, .call (.seek 0 .SEEK_SET),
      .call (.write (List.replicate BUF_SIZE 5)), .call (.seek 0 .SEEK_SET)] = some (written, fd) ∧
    (fd.Read (fun _ => 0) 1).map (·.1) = some [7] ∧
    load (overwrite (content oneByte.chunks) written) fd.currPos.fileOffset 1 = [5] := by
  obtain ⟨n, hn⟩ : ∃ n, BUF_SIZE = n + 1 := ⟨4194303, rfl⟩
  rw [hn, List.replicate_succ]
  obtain ⟨fd, hrun, hpos, hread⟩ := @oneByte_stale 5 (List.replicate n 5) (by decide)
    (by rw [List.length_cons, List.length_replicate, hn]) (by
      rw [List.length_cons, List.length_replicate, ← hn]
      decide)
  refine ⟨_, fd, hrun, hread, ?_⟩
  rw [hpos, overwrite_cells, load, List.range_one, List.map_singleton, store_of_mem le_rfl (by simp)]
  simp

end Kfs.Client
