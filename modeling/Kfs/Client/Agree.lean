import Kfs.Client.Location
import Kfs.Client.ReadErrors
import Kfs.Client.Seek

/-!
# One descriptor in several models

The descriptor of a file comes with what a group of properties needs of it. `Fd` has the chunks of its file on servers
that do not fail, `Unreliable.Fd` the answers of servers that may, `Seeking.Descriptor` the machine numbers of a
position, and `Location` the servers of the chunks. What they have in common is the same.

* `Fd.unreliable`, `Fd.seeking`, `Unreliable.Fd.seeking`: one descriptor as another;
* `Answered`: the answers of servers that do not fail;
* **`Read_unreliable`**: a read from such servers is a read with these answers;
* **`Seek_seeking`**: a seek is the seek with machine numbers;
* `LocateChunk_location`: a chunk is located in the same way for its servers.
-/

namespace Kfs.Client

open Kfs.Lib

/-! ## Reading -/

/-- The chunk with the number 0 in its file has the id 1 on the servers. -/
def ChunkAttr.unreliable (chunk : ChunkAttr) : Unreliable.ChunkAttr := ⟨chunk.chunkId + 1, chunk.chunkSize⟩

namespace Fd

/-- The descriptor when `clock` requests have been sent. -/
def unreliable (fd : Fd) (clock : ℕ) : Unreliable.Fd where
  openMode := fd.openMode
  isDirectory := false
  fileSize := fd.fileSize
  cattr k := (fd.cattr k).elim {} ChunkAttr.unreliable
  currPos := fd.currPos
  buffer := fd.buffer
  clock := clock

/-- The chunk at the position on the servers. -/
def stored (fd : Fd) : Stored := (fd.LocateChunk.2.GetCurrChunk.bind fun chunk => fd.chunks chunk.chunkId).getD .empty

/-- The requests from `k` on and before `k'` are answered by servers that do not fail, for the chunk at the position. -/
structure Answered (w : Unreliable.Outside) (fd : Fd) (k k' : ℕ) : Prop where
  getAlloc (j : ℕ) : k ≤ j → j < k' →
    w.getAlloc j = if fd.LocateChunk.1 then (0, (fd.currPos.chunkNum.toNat : ℤ) + 1) else (-1, 0)
  leaseGood (j : ℕ) : k ≤ j → j < k' → w.leaseGood j = true
  connect (j : ℕ) : k ≤ j → j < k' → w.connect j = true
  size (j : ℕ) : k ≤ j → j < k' → w.size j = (0, fd.stored.size)
  read (j : ℕ) : k ≤ j → j < k' → w.read j = reader fd.stored

variable {w : Unreliable.Outside} {fd fd' : Fd} {k k' j : ℕ}

theorem Answered.mono (h : Answered w fd k k') {l l' : ℕ} (hl : k ≤ l) (hl' : l' ≤ k') : Answered w fd l l' where
  getAlloc j h₁ h₂ := h.getAlloc j (hl.trans h₁) (h₂.trans_le hl')
  leaseGood j h₁ h₂ := h.leaseGood j (hl.trans h₁) (h₂.trans_le hl')
  connect j h₁ h₂ := h.connect j (hl.trans h₁) (h₂.trans_le hl')
  size j h₁ h₂ := h.size j (hl.trans h₁) (h₂.trans_le hl')
  read j h₁ h₂ := h.read j (hl.trans h₁) (h₂.trans_le hl')

theorem GetCurrChunk_unreliable {chunk : ChunkAttr} (h : fd.GetCurrChunk = some chunk) :
    (fd.unreliable k).GetCurrChunk = chunk.unreliable := by
  change (fd.cattr fd.currPos.chunkNum).elim {} ChunkAttr.unreliable = _
  rw [show fd.cattr fd.currPos.chunkNum = some chunk from h]
  rfl

theorem setCurrChunk_unreliable (chunk : ChunkAttr) :
    (fd.setCurrChunk chunk).unreliable k = (fd.unreliable k).setCurrChunk chunk.unreliable := by
  have hcattr : (fun i => (Function.update fd.cattr fd.currPos.chunkNum (some chunk) i).elim {} ChunkAttr.unreliable) =
      Function.update (fun i => (fd.cattr i).elim {} ChunkAttr.unreliable) fd.currPos.chunkNum chunk.unreliable := by
    funext i
    rcases eq_or_ne i fd.currPos.chunkNum with rfl | hne
    · simp
    · simp [hne]
  simp only [unreliable, setCurrChunk, Unreliable.Fd.setCurrChunk, hcattr]

/-- A chunk that is there is located, with one request at most. -/
theorem LocateChunk_unreliable (fd : Fd) (k : ℕ) : ∃ k', k ≤ k' ∧ ∃ status : ℤ,
    (status < 0 ↔ fd.LocateChunk.1 = false) ∧ ∀ w, Answered w fd k k' →
      (fd.unreliable k).LocateChunk w = (status, fd.LocateChunk.2.unreliable k') := by
  by_cases hneg : fd.currPos.chunkNum < 0
  · have hlocate : fd.LocateChunk = (false, fd) := if_pos hneg
    rw [hlocate]
    exact ⟨k, le_rfl, -Chunk.EINVAL, iff_of_true (by decide) rfl, fun w _ => if_pos hneg⟩
  have hneg' : ¬ (fd.unreliable k).currPos.chunkNum < 0 := hneg
  have hlocate : fd.LocateChunk = if fd.GetCurrChunk.isSome then (true, fd)
      else if (fd.chunks fd.currPos.chunkNum.toNat).isSome then
        (true, fd.setCurrChunk { chunkId := fd.currPos.chunkNum.toNat }) else (false, fd) := if_neg hneg
  cases hcur : fd.GetCurrChunk with
  | some chunk =>
    have hknown : fd.LocateChunk = (true, fd) := by rw [hlocate, hcur]; rfl
    rw [hknown]
    refine ⟨k, le_rfl, 0, iff_of_false (lt_irrefl 0) (by simp), fun w _ => ?_⟩
    rw [Unreliable.Fd.LocateChunk, if_neg hneg', if_pos]
    rw [GetCurrChunk_unreliable hcur]
    exact Int.natCast_succ_pos _
  | none =>
    have hnone : (fd.unreliable k).GetCurrChunk = {} := by
      change (fd.cattr fd.currPos.chunkNum).elim {} ChunkAttr.unreliable = _
      rw [show fd.cattr fd.currPos.chunkNum = none from hcur]
      rfl
    have hask (w : Unreliable.Outside) : (fd.unreliable k).LocateChunk w =
        if (w.getAlloc k).1 < 0 then ((w.getAlloc k).1, (fd.unreliable k).ask)
        else (0, (fd.unreliable k).ask.setCurrChunk { chunkId := (w.getAlloc k).2 }) := by
      rw [Unreliable.Fd.LocateChunk, if_neg hneg', hnone]
      rfl
    by_cases hthere : (fd.chunks fd.currPos.chunkNum.toNat).isSome = true
    · have hfound : fd.LocateChunk = (true, fd.setCurrChunk { chunkId := fd.currPos.chunkNum.toNat }) := by
        rw [hlocate, hcur, Option.isSome_none, if_neg Bool.false_ne_true, if_pos hthere]
      refine ⟨k + 1, Nat.le_succ k, 0, iff_of_false (lt_irrefl 0) (by simp [hfound]), fun w hw => ?_⟩
      have hans := hw.getAlloc k le_rfl (Nat.lt_succ_self k)
      rw [hfound, if_pos rfl] at hans
      rw [hask, hans, hfound, if_neg (lt_irrefl 0), setCurrChunk_unreliable]
      rfl
    · have hmissing : fd.LocateChunk = (false, fd) := by
        rw [hlocate, hcur, Option.isSome_none, if_neg Bool.false_ne_true, if_neg hthere]
      refine ⟨k + 1, Nat.le_succ k, -1, iff_of_true (by decide) (by rw [hmissing]), fun w hw => ?_⟩
      have hans := hw.getAlloc k le_rfl (Nat.lt_succ_self k)
      rw [hmissing, if_neg Bool.false_ne_true] at hans
      rw [hask, hans, hmissing, if_pos (by decide)]
      rfl

theorem LocateChunk_found (h : fd.LocateChunk.1 = true) : ∃ chunk, fd.LocateChunk.2.GetCurrChunk = some chunk := by
  unfold LocateChunk at h ⊢
  dsimp only at h ⊢
  split_ifs at h ⊢ with hneg hknown hthere
  · exact Option.isSome_iff_exists.1 hknown
  · exact ⟨_, Function.update_self _ _ _⟩

theorem LocateChunk_same : fd.LocateChunk.2.chunks = fd.chunks ∧ fd.LocateChunk.2.buffer = fd.buffer := by
  unfold LocateChunk
  dsimp only
  split_ifs
  all_goals exact ⟨rfl, rfl⟩

/-- A server of the chunk is reached, and tells its size. -/
theorem OpenChunk_unreliable {chunk : ChunkAttr} (hc : fd.GetCurrChunk = some chunk) (hconn : w.connect k = true)
    (hsize : w.size (k + 1) = (0, ((fd.chunks chunk.chunkId).getD .empty).size)) :
    (fd.unreliable k).OpenChunk w = (0, fd.OpenChunk.unreliable (k + 2)) := by
  have hcur := GetCurrChunk_unreliable (k := k) hc
  have hid : (fd.unreliable k).GetCurrChunk.chunkId ≠ -1 := by
    rw [hcur]
    have : (0 : ℤ) ≤ chunk.chunkId := Int.natCast_nonneg _
    simp only [ChunkAttr.unreliable]
    omega
  have hopen : fd.OpenChunk = setCurrChunk { fd with currPos := { fd.currPos with preferredServer := true } }
      { chunk with chunkSize := ((fd.chunks chunk.chunkId).map (·.size)).getD 0 } := by
    unfold OpenChunk SizeChunk
    rw [show GetCurrChunk { fd with currPos := { fd.currPos with preferredServer := true } } = some chunk from hc]
  have hget : ((fd.chunks chunk.chunkId).map (·.size)).getD 0 = ((fd.chunks chunk.chunkId).getD .empty).size := by
    cases fd.chunks chunk.chunkId with
    | none => rfl
    | some c => rfl
  rw [Unreliable.Fd.OpenChunk, if_neg hid, if_pos (show w.connect (fd.unreliable k).clock = true from hconn), hopen,
    setCurrChunk_unreliable, hget, Unreliable.Fd.SizeChunk,
    show w.size ((fd.unreliable k).ask.connected true).clock = _ from hsize,
    show ((fd.unreliable k).ask.connected true).GetCurrChunk = _ from hcur]
  rfl

theorem OpenChunk_same {chunk : ChunkAttr} (hc : fd.GetCurrChunk = some chunk) :
    (∃ chunk', fd.OpenChunk.GetCurrChunk = some chunk' ∧ chunk'.chunkId = chunk.chunkId) ∧
      fd.OpenChunk.chunks = fd.chunks ∧ fd.OpenChunk.buffer = fd.buffer ∧
      fd.OpenChunk.currPos.preferredServer = true := by
  unfold OpenChunk SizeChunk
  rw [show GetCurrChunk { fd with currPos := { fd.currPos with preferredServer := true } } = some chunk from hc]
  exact ⟨⟨_, Function.update_self _ _ _, rfl⟩, rfl, rfl, rfl⟩

theorem lease_unreliable {chunk : ChunkAttr} (hc : fd.GetCurrChunk = some chunk) (hlease : w.leaseGood k = true) :
    (fd.unreliable k).IsChunkLeaseGood w (fd.unreliable k).GetCurrChunk.chunkId = (true, fd.unreliable (k + 1)) := by
  have hid : 0 < (fd.unreliable k).GetCurrChunk.chunkId := by
    rw [GetCurrChunk_unreliable hc]
    exact Int.natCast_succ_pos _
  rw [Unreliable.Fd.IsChunkLeaseGood, if_pos hid]
  exact Prod.ext hlease rfl

theorem readable_def (fd : Fd) : fd.IsChunkReadable = if fd.LocateChunk.1 then
    (true, if fd.LocateChunk.2.currPos.preferredServer then fd.LocateChunk.2 else fd.LocateChunk.2.OpenChunk)
    else (false, fd.LocateChunk.2) := rfl

/-- A chunk that is located and opened is readable. -/
theorem IsChunkReadable_unreliable (fd : Fd) (k : ℕ) : ∃ k', k ≤ k' ∧ ∀ w, Answered w fd k k' →
    (fd.unreliable k).IsChunkReadable w = (fd.IsChunkReadable.1, fd.IsChunkReadable.2.unreliable k') := by
  obtain ⟨k₁, hk₁, status, hstatus, hlocate⟩ := LocateChunk_unreliable fd k
  cases hfound : fd.LocateChunk.1 with
  | false =>
    rw [readable_def, hfound, if_neg Bool.false_ne_true]
    refine ⟨k₁, hk₁, fun w hw => ?_⟩
    rw [Unreliable.Fd.IsChunkReadable, hlocate w hw]
    exact if_pos (hstatus.2 hfound)
  | true =>
    obtain ⟨chunk, hchunk⟩ := LocateChunk_found hfound
    have hstored : fd.stored = (fd.LocateChunk.2.chunks chunk.chunkId).getD .empty := by
      rw [stored, hchunk, LocateChunk_same.1]
      rfl
    have hok : ¬ status < 0 := fun h => by simp [hstatus.1 h] at hfound
    rw [readable_def, hfound, if_pos rfl]
    have hid : (fd.LocateChunk.2.unreliable k₁).GetCurrChunk.chunkId ≠ -1 := by
      rw [GetCurrChunk_unreliable hchunk]
      have : (0 : ℤ) ≤ chunk.chunkId := Int.natCast_nonneg _
      simp only [ChunkAttr.unreliable]
      omega
    cases hpref : fd.LocateChunk.2.currPos.preferredServer with
    | true =>
      refine ⟨k₁ + 1, hk₁.trans (Nat.le_succ _), fun w hw => ?_⟩
      rw [Unreliable.Fd.IsChunkReadable, hlocate w (hw.mono le_rfl (Nat.le_succ _))]
      have hnot : ¬ ((fd.LocateChunk.2.unreliable k₁).currPos.preferredServer = false ∧
          (fd.LocateChunk.2.unreliable k₁).GetCurrChunk.chunkId ≠ -1) := by
        rintro ⟨h, -⟩
        exact absurd (hpref.symm.trans h) (by decide)
      dsimp only
      rw [if_neg hok, if_neg hnot]
      exact lease_unreliable hchunk (hw.leaseGood k₁ hk₁ (Nat.lt_succ_self _))
    | false =>
      obtain ⟨⟨chunk', hchunk', -⟩, -⟩ := OpenChunk_same hchunk
      refine ⟨k₁ + 3, hk₁.trans (Nat.le_add_right _ _), fun w hw => ?_⟩
      rw [Unreliable.Fd.IsChunkReadable, hlocate w (hw.mono le_rfl (Nat.le_add_right _ _))]
      have hsize := hw.size (k₁ + 1) (by omega) (by omega)
      rw [hstored] at hsize
      have hopen := OpenChunk_unreliable hchunk (hw.connect k₁ hk₁ (by omega)) hsize
      have hclosed : (fd.LocateChunk.2.unreliable k₁).currPos.preferredServer = false ∧
          (fd.LocateChunk.2.unreliable k₁).GetCurrChunk.chunkId ≠ -1 := ⟨hpref, hid⟩
      dsimp only
      rw [if_neg hok, if_pos hclosed, hopen]
      exact lease_unreliable hchunk' (hw.leaseGood (k₁ + 2) (by omega) (by omega))

/-- What is known of a chunk that is readable. -/
theorem IsChunkReadable_found (h : fd.IsChunkReadable.1 = true) : ∃ chunk,
    fd.IsChunkReadable.2.GetCurrChunk = some chunk ∧ fd.IsChunkReadable.2.currPos.preferredServer = true ∧
      fd.IsChunkReadable.2.buffer = fd.buffer ∧
      fd.stored = (fd.IsChunkReadable.2.chunks chunk.chunkId).getD .empty := by
  cases hfound : fd.LocateChunk.1 with
  | false =>
    rw [readable_def, hfound] at h
    cases h
  | true =>
    obtain ⟨chunk, hchunk⟩ := LocateChunk_found hfound
    have hstored : fd.stored = (fd.LocateChunk.2.chunks chunk.chunkId).getD .empty := by
      rw [stored, hchunk, LocateChunk_same.1]
      rfl
    rw [readable_def, hfound, if_pos rfl]
    cases hpref : fd.LocateChunk.2.currPos.preferredServer with
    | true => exact ⟨chunk, hchunk, hpref, LocateChunk_same.2, hstored⟩
    | false =>
      obtain ⟨⟨chunk', hchunk', hid⟩, hchunks, hbuffer, hconn⟩ := OpenChunk_same hchunk
      refine ⟨chunk', hchunk', hconn, hbuffer.trans LocateChunk_same.2, hstored.trans ?_⟩
      rw [← hid]
      exact congrArg (fun c : ℕ → Option Stored => (c chunk'.chunkId).getD .empty) hchunks.symm

theorem ZeroFillBuf_unreliable {chunk : ChunkAttr} (hc : fd.GetCurrChunk = some chunk) (numBytes : ℕ) :
    (fd.unreliable k).ZeroFillBuf numBytes = fd.ZeroFillBuf numBytes := by
  rw [Unreliable.Fd.ZeroFillBuf, ZeroFillBuf, GetCurrChunk_unreliable hc, hc]
  rfl

theorem readFromServer_unreliable {chunk : ChunkAttr} (hc : fd.GetCurrChunk = some chunk) {buf : ℕ → UInt8}
    {numBytes : ℕ} {r : ℤ × (ℕ → UInt8)} (h : fd.readFromServer buf numBytes = some r)
    (hread : w.read k = reader ((fd.chunks chunk.chunkId).getD .empty)) :
    (fd.unreliable k).readFromServer w buf numBytes = some r := by
  rw [readFromServer, hc] at h
  dsimp only at h
  cases hchunk : fd.chunks chunk.chunkId with
  | none =>
    rw [hchunk] at h
    cases h
  | some c =>
    rw [hchunk] at h hread
    rw [Unreliable.Fd.readFromServer, GetCurrChunk_unreliable hc,
      show w.read (fd.unreliable k).clock = reader c from hread]
    exact h

/-- What is read from a chunk that is open. -/
theorem ReadChunk_unreliable {chunk : ChunkAttr} (hc : fd.GetCurrChunk = some chunk)
    (hpref : fd.currPos.preferredServer = true) {buf : ℕ → UInt8} {numBytes : ℕ} {bytes : List UInt8}
    (h : fd.ReadChunk buf numBytes = some (bytes, fd')) (k : ℕ) :
    fd'.buffer.dirty = fd.buffer.dirty ∧ ∃ k', k ≤ k' ∧ ∀ w : Unreliable.Outside,
      (∀ j, k ≤ j → j < k' → w.read j = reader ((fd.chunks chunk.chunkId).getD .empty)) →
        (fd.unreliable k).ReadChunk w buf numBytes = some (.ok bytes, fd'.unreliable k') := by
  obtain ⟨hlt, h⟩ := Option.ite_none_right_eq_some.1 h
  have hinside : (fd.unreliable k).currPos.fileOffset < (fd.unreliable k).fileSize := hlt
  have hcopy : (fd.unreliable k).CopyFromChunkBuf numBytes = fd.CopyFromChunkBuf numBytes := rfl
  dsimp only at h
  by_cases hcopied : fd.CopyFromChunkBuf numBytes ≠ []
  · rw [if_pos hcopied] at h
    obtain ⟨rfl, rfl⟩ := Prod.mk.inj (Option.some.inj h)
    refine ⟨rfl, k, le_rfl, fun w _ => ?_⟩
    rw [Unreliable.Fd.ReadChunk, if_pos hinside]
    exact if_pos hcopied
  rw [if_neg hcopied] at h
  have honce (w : Unreliable.Outside) {k' : ℕ}
      (hread : (fd.unreliable k).readOnce w buf numBytes = some (.ok bytes, fd'.unreliable k')) :
      (fd.unreliable k).ReadChunk w buf numBytes = some (.ok bytes, fd'.unreliable k') := by
    rw [Unreliable.Fd.ReadChunk, if_pos hinside]
    dsimp only
    rw [hcopy, if_neg hcopied, if_pos (show (fd.unreliable k).currPos.preferredServer = true from hpref), hread]
  cases hzero : fd.ZeroFillBuf numBytes with
  | none =>
    rw [hzero] at h
    cases h
  | some zeros =>
    rw [hzero] at h
    dsimp only at h
    have hzeros := (ZeroFillBuf_unreliable (k := k) hc numBytes).trans hzero
    by_cases hpos : 0 < zeros
    · rw [if_pos hpos] at h
      obtain ⟨rfl, rfl⟩ := Prod.mk.inj (Option.some.inj h)
      refine ⟨rfl, k, le_rfl, fun w _ => honce w ?_⟩
      rw [Unreliable.Fd.readOnce, hzeros]
      exact if_pos hpos
    rw [if_neg hpos] at h
    by_cases hsmall : numBytes < BUF_SIZE
    · rw [if_pos hsmall] at h
      cases hserver : fd.readFromServer fd.buffer.buf BUF_SIZE with
      | none =>
        rw [hserver] at h
        cases h
      | some r =>
        obtain ⟨ numIO, mem⟩ := r
        rw [hserver] at h
        dsimp only at h
        have hans (w : Unreliable.Outside)
            (hw : ∀ j, k ≤ j → j < k + 1 → w.read j = reader ((fd.chunks chunk.chunkId).getD .empty)) :
            (fd.unreliable k).readFromServer w (fd.unreliable k).buffer.buf BUF_SIZE = some ( numIO, mem) :=
          readFromServer_unreliable hc hserver (hw k le_rfl (Nat.lt_succ_self k))
        by_cases hany : 0 < numIO
        · rw [if_pos hany] at h
          obtain ⟨rfl, rfl⟩ := Prod.mk.inj (Option.some.inj h)
          refine ⟨rfl, k + 1, Nat.le_succ k, fun w hw => honce w ?_⟩
          rw [Unreliable.Fd.readOnce, hzeros]
          dsimp only
          rw [if_neg hpos, if_pos hsmall, hans w hw]
          exact if_pos hany
        · rw [if_neg hany] at h
          obtain ⟨hneg, h⟩ := Option.ite_none_left_eq_some.1 h
          obtain ⟨rfl, rfl⟩ := Prod.mk.inj (Option.some.inj h)
          refine ⟨rfl, k + 1, Nat.le_succ k, fun w hw => honce w ?_⟩
          rw [Unreliable.Fd.readOnce, hzeros]
          dsimp only
          rw [if_neg hpos, if_pos hsmall, hans w hw]
          dsimp only
          rw [if_neg hany, if_neg hneg]
          rfl
    · rw [if_neg hsmall] at h
      cases hserver : fd.readFromServer buf numBytes with
      | none =>
        rw [hserver] at h
        cases h
      | some r =>
        obtain ⟨ numIO, mem⟩ := r
        rw [hserver] at h
        obtain ⟨hneg, h⟩ := Option.ite_none_left_eq_some.1 h
        obtain ⟨rfl, rfl⟩ := Prod.mk.inj (Option.some.inj h)
        refine ⟨rfl, k + 1, Nat.le_succ k, fun w hw => honce w ?_⟩
        rw [Unreliable.Fd.readOnce, hzeros]
        dsimp only
        rw [if_neg hpos, if_neg hsmall,
          readFromServer_unreliable hc hserver (hw k le_rfl (Nat.lt_succ_self k))]
        dsimp only
        rw [if_neg hneg]
        rfl

/-- With nothing to flush a seek asks for nothing. -/
theorem Seek_unreliable (hclean : fd.buffer.dirty = false) {n : ℕ} (h : fd.Seek n .SEEK_CUR = some fd') (k : ℕ) :
    fd'.buffer.dirty = false ∧ ∀ w, (fd.unreliable k).Seek w n = some (fd'.unreliable k) := by
  have hflush : fd.FlushBuffer = some fd := if_neg (by simp [hclean])
  have hflush' (w : Unreliable.Outside) : (fd.unreliable k).FlushBuffer w = fd.unreliable k :=
    if_neg (show ¬ fd.buffer.dirty = true by simp [hclean])
  have hnat : ((fd.currPos.fileOffset : ℤ) + n).toNat = fd.currPos.fileOffset + n := by omega
  have hseek : fd.Seek n .SEEK_CUR = if (fd.currPos.fileOffset : ℤ) + n < 0 then none
    else fd.seekTo ((fd.currPos.fileOffset : ℤ) + n).toNat := rfl
  rw [hseek, if_neg (by omega), hnat, seekTo] at h
  dsimp only at h
  by_cases hchunk : fd.currPos.chunkNum ≠ toInt32 ((fd.currPos.fileOffset + n : ℕ) / Chunk.CHUNKSIZE : ℕ)
  · rw [if_pos hchunk, hflush] at h
    dsimp only at h
    rw [if_neg (by simp [hclean])] at h
    obtain rfl := Option.some.inj h
    refine ⟨hclean, fun w => ?_⟩
    rw [Unreliable.Fd.Seek]
    dsimp only
    rw [hflush']
    exact (if_pos hchunk).trans (if_neg (by simp [unreliable, hclean]))
  · rw [if_neg hchunk] at h
    obtain rfl := Option.some.inj h
    refine ⟨hclean, fun w => ?_⟩
    exact if_neg hchunk

/-- The answers to all that is asked for the chunk at the position. -/
def answers (fd : Fd) : Unreliable.Outside where
  getAlloc _ := if fd.LocateChunk.1 then (0, (fd.currPos.chunkNum.toNat : ℤ) + 1) else (-1, 0)
  named _ h := by
    split_ifs at h ⊢ with hfound
    · exact Int.natCast_succ_pos _
    · exact absurd h (by decide)
  leaseGood _ := true
  connect _ := true
  size _ := (0, fd.stored.size)
  read _ := reader fd.stored
  written _ := ⟨0, {}, false, 0⟩

/-- The requests from `k` on are answered alike. -/
structure Alike (w w' : Unreliable.Outside) (k : ℕ) : Prop where
  getAlloc (j : ℕ) : k ≤ j → w'.getAlloc j = w.getAlloc j
  leaseGood (j : ℕ) : k ≤ j → w'.leaseGood j = w.leaseGood j
  connect (j : ℕ) : k ≤ j → w'.connect j = w.connect j
  size (j : ℕ) : k ≤ j → w'.size j = w.size j
  read (j : ℕ) : k ≤ j → w'.read j = w.read j

/-- The answers of `w` before the request `k`, and those of `w'` from it on. -/
def follow (w w' : Unreliable.Outside) (k : ℕ) : Unreliable.Outside where
  getAlloc j := if j < k then w.getAlloc j else w'.getAlloc j
  named j h := by
    split_ifs at h ⊢
    · exact w.named j h
    · exact w'.named j h
  leaseGood j := if j < k then w.leaseGood j else w'.leaseGood j
  connect j := if j < k then w.connect j else w'.connect j
  size j := if j < k then w.size j else w'.size j
  read j := if j < k then w.read j else w'.read j
  written j := if j < k then w.written j else w'.written j

theorem Alike.answered {w₀ : Unreliable.Outside} (h : Alike (follow fd.answers w₀ k') w k) : Answered w fd k k' where
  getAlloc j h₁ h₂ := (h.getAlloc j h₁).trans (if_pos h₂)
  leaseGood j h₁ h₂ := (h.leaseGood j h₁).trans (if_pos h₂)
  connect j h₁ h₂ := (h.connect j h₁).trans (if_pos h₂)
  size j h₁ h₂ := (h.size j h₁).trans (if_pos h₂)
  read j h₁ h₂ := (h.read j h₁).trans (if_pos h₂)

theorem Alike.rest {w₀ : Unreliable.Outside} (h : Alike (follow fd.answers w₀ k') w k) (hk : k ≤ k') :
    Alike w₀ w k' where
  getAlloc j hj := (h.getAlloc j (hk.trans hj)).trans (if_neg hj.not_gt)
  leaseGood j hj := (h.leaseGood j (hk.trans hj)).trans (if_neg hj.not_gt)
  connect j hj := (h.connect j (hk.trans hj)).trans (if_neg hj.not_gt)
  size j hj := (h.size j (hk.trans hj)).trans (if_neg hj.not_gt)
  read j hj := (h.read j (hk.trans hj)).trans (if_neg hj.not_gt)

/-- The loop, with the answers from the request `k` on. -/
theorem readLoop_unreliable {buf : ℕ → UInt8} {fuel nread nleft : ℕ} {bytes : List UInt8}
    (hclean : fd.buffer.dirty = false) (h : fd.readLoop buf fuel nread nleft = some (bytes, fd')) (k : ℕ) :
    ∃ w k', ∀ w', Alike w w' k →
      Unreliable.Fd.readLoop w' fuel (fun i => buf (nread + i)) nleft (fd.unreliable k) =
        some (bytes, fd'.unreliable k') := by
  induction fuel generalizing fd nread nleft bytes k with
  | zero =>
    rw [readLoop] at h
    obtain ⟨hleft, h⟩ := Option.ite_none_right_eq_some.1 h
    obtain ⟨rfl, rfl⟩ := Prod.mk.inj (Option.some.inj h)
    exact ⟨fd.answers, k, fun w' _ => if_pos hleft⟩
  | succ fuel ih =>
    rw [readLoop] at h
    by_cases hleft : nleft = 0
    · rw [if_pos hleft] at h
      obtain ⟨rfl, rfl⟩ := Prod.mk.inj (Option.some.inj h)
      exact ⟨fd.answers, k, fun w' _ => if_pos hleft⟩
    rw [if_neg hleft] at h
    obtain ⟨k₁, hk₁, hreadable⟩ := IsChunkReadable_unreliable fd k
    dsimp only at h
    have hout : (fd.IsChunkReadable.1 = false ∨ (fd.IsChunkReadable.2.unreliable k₁).fileSize ≤
          (fd.IsChunkReadable.2.unreliable k₁).currPos.fileOffset) ↔ (¬ fd.IsChunkReadable.1 = true ∨
        fd.IsChunkReadable.2.fileSize ≤ fd.IsChunkReadable.2.currPos.fileOffset) :=
      or_congr_left (by simp)
    by_cases hstop : ¬ fd.IsChunkReadable.1 = true ∨
        fd.IsChunkReadable.2.fileSize ≤ fd.IsChunkReadable.2.currPos.fileOffset
    · rw [if_pos hstop] at h
      obtain ⟨rfl, rfl⟩ := Prod.mk.inj (Option.some.inj h)
      refine ⟨follow fd.answers fd.answers k₁, k₁, fun w' hw => ?_⟩
      rw [Unreliable.Fd.readLoop, if_neg hleft, Unreliable.Fd.readRound, hreadable w' hw.answered]
      dsimp only
      rw [if_pos (hout.2 hstop)]
    rw [if_neg hstop] at h
    have hfound : fd.IsChunkReadable.1 = true := not_not.1 (not_or.1 hstop).1
    obtain ⟨chunk, hchunk, hpref, hbuffer, hstored⟩ := IsChunkReadable_found hfound
    cases hread : fd.IsChunkReadable.2.ReadChunk (fun i => buf (nread + i)) nleft with
    | none =>
      rw [hread] at h
      cases h
    | some r =>
      obtain ⟨piece, fd₂⟩ := r
      rw [hread] at h
      dsimp only at h
      obtain ⟨hdirty, k₂, hk₂, hpiece⟩ := ReadChunk_unreliable hchunk hpref hread k₁
      cases hseek : fd₂.Seek piece.length .SEEK_CUR with
      | none =>
        rw [hseek] at h
        cases h
      | some fd₃ =>
        rw [hseek] at h
        obtain ⟨⟨rest, fd₄⟩, hrest, heq⟩ := Option.map_eq_some_iff.1 h
        obtain ⟨rfl, rfl⟩ := Prod.mk.inj heq
        obtain ⟨hclean₃, hmoved⟩ := Seek_unreliable (by rw [hdirty, hbuffer, hclean]) hseek k₂
        obtain ⟨w₀, k₃, hloop⟩ := ih hclean₃ hrest k₂
        refine ⟨follow fd.answers w₀ k₂, k₃, fun w' hw => ?_⟩
        have hans : Answered w' fd k k₂ := hw.answered
        have hround : (fd.unreliable k).readRound w' (fun i => buf (nread + i)) nleft =
            some (some piece, fd₃.unreliable k₂) := by
          rw [Unreliable.Fd.readRound, hreadable w' (hans.mono le_rfl hk₂)]
          dsimp only
          rw [if_neg (mt hout.1 hstop), hpiece w' fun j h₁ h₂ => by
            rw [← hstored]
            exact hans.read j (hk₁.trans h₁) h₂]
          dsimp only
          rw [hmoved, Option.map_some]
        rw [Unreliable.Fd.readLoop, if_neg hleft, hround]
        dsimp only
        have hshift : (fun i => buf (nread + (piece.length + i))) = fun i => buf (nread + piece.length + i) := by
          funext i
          rw [Nat.add_assoc]
        rw [hshift, hloop w' (hw.rest (hk₁.trans hk₂)), Option.map_some]

/-- **A read from servers that do not fail is a read with such answers.** -/
theorem Read_unreliable {buf : ℕ → UInt8} {numBytes : ℕ} {bytes : List UInt8} (hmode : fd.openMode ≠ .wronly)
    (hclean : fd.buffer.dirty = false) (h : fd.Read buf numBytes = some (bytes, fd')) :
    ∃ w k', (fd.unreliable 0).Read w buf numBytes numBytes = some (.ok bytes, fd'.unreliable k') := by
  have hflush : fd.FlushBuffer = some fd := if_neg (by simp [hclean])
  rw [Read, if_neg hmode, hflush] at h
  obtain ⟨w, k', hloop⟩ := readLoop_unreliable hclean h 0
  have hsame := hloop w ⟨fun _ _ => rfl, fun _ _ => rfl, fun _ _ => rfl, fun _ _ => rfl, fun _ _ => rfl⟩
  have hflush' : (fd.unreliable 0).FlushBuffer w = fd.unreliable 0 :=
    if_neg (show ¬ fd.buffer.dirty = true by simp [hclean])
  refine ⟨w, k', ?_⟩
  rw [Unreliable.Fd.Read, if_neg (show ¬ (fd.unreliable 0).openMode = .wronly from hmode),
    if_neg (show ¬ (fd.unreliable 0).isDirectory = true from Bool.false_ne_true), hflush']
  simp only [Nat.zero_add] at hsame
  rw [hsame]
  rfl

end Fd

/-! ## Seeking -/

/-- The descriptor as a seek sees it. -/
def Unreliable.Fd.seeking (fd : Unreliable.Fd) : Seeking.Descriptor where
  isDirectory := fd.isDirectory
  fileSize := fd.fileSize
  currPos := ⟨fd.currPos.fileOffset, fd.currPos.chunkNum, fd.currPos.chunkOffset, fd.currPos.preferredServer⟩
  buffer := ⟨fd.buffer.chunkno, fd.buffer.start, fd.buffer.length, fd.buffer.dirty⟩

def Fd.seeking (fd : Fd) : Seeking.Descriptor := (fd.unreliable 0).seeking

def Fd.Whence.toInt : Fd.Whence → ℤ
  | .SEEK_SET => Seeking.SEEK_SET
  | .SEEK_CUR => Seeking.SEEK_CUR
  | .SEEK_END => Seeking.SEEK_END

/-- A position of 64 bits in its chunk. -/
theorem position_seeking {n : ℕ} (h : n < 2 ^ 63) :
    Seeking.toInt32 (Seeking.toUInt64 n / Seeking.CHUNKSIZE) = toInt32 (n / Chunk.CHUNKSIZE) ∧
      Seeking.toUInt64 n % Seeking.CHUNKSIZE = (n % Chunk.CHUNKSIZE : ℕ) := by
  have hsame : Seeking.toUInt64 n = n := by
    rw [Seeking.toUInt64]
    omega
  rw [hsame]
  exact ⟨rfl, rfl⟩

/-- A seek to a position that is not negative, after the flush of the buffer when it leaves the chunk. -/
theorem seek_nonneg {written : Seeking.Written} {d d' : Seeking.Descriptor} {offset whence : ℤ} {n : ℕ}
    (hfile : d.isDirectory = false) (hwhence : whence = Seeking.SEEK_SET ∨ whence = Seeking.SEEK_CUR ∨
      whence = Seeking.SEEK_END) (hoff : Seeking.newOff d offset whence = n) (hn : n < 2 ^ 63) {preferredServer : Bool}
    (hflush : if d.currPos.chunkNum = toInt32 (n / Chunk.CHUNKSIZE) then
        d' = d ∧ preferredServer = d.currPos.preferredServer
      else d' = Seeking.FlushBuffer written d ∧ d'.buffer.dirty = false ∧ preferredServer = false) :
    Seeking.seek written d offset whence = some ((n : ℤ), ⟨d'.isDirectory, d'.fileSize,
      ⟨n, toInt32 (n / Chunk.CHUNKSIZE), (n % Chunk.CHUNKSIZE : ℕ), preferredServer⟩, d'.buffer⟩) := by
  obtain ⟨hnum, hoffset⟩ := position_seeking hn
  have hknown : ¬ (whence ≠ Seeking.SEEK_SET ∧ whence ≠ Seeking.SEEK_CUR ∧ whence ≠ Seeking.SEEK_END) := by
    rintro ⟨h₁, h₂, h₃⟩
    rcases hwhence with h | h | h
    exacts [h₁ h, h₂ h, h₃ h]
  have hlt : n < 9223372036854775808 := hn
  have hfits : Seeking.Fits n := ⟨by omega, by omega⟩
  rw [Seeking.seek, if_neg (by simp [hfile]), if_neg hknown]
  dsimp only
  rw [hoff, if_neg (not_not.2 hfits), Seeking.moveTo, Seeking.moveTo, hnum, hoffset]
  split_ifs at hflush with hchunk
  · obtain ⟨rfl, rfl⟩ := hflush
    rw [if_neg (not_not.2 hchunk)]
  · obtain ⟨rfl, hdone, rfl⟩ := hflush
    rw [if_pos hchunk, if_neg (by simp [hdone])]

namespace Unreliable.Fd

variable {w : Outside} {fd fd' : Fd}

/-- The flush of the buffer as a seek sees it. -/
def flushed (res : Written) (fileSize : ℕ) : Seeking.Written := ⟨ res.numIO, (max fileSize res.eow : ℕ)⟩

/-- **A seek of the descriptor whose servers may fail is the seek with machine numbers.** -/
theorem Seek_seeking {offset : ℕ} (hfile : fd.isDirectory = false) (hoff : fd.currPos.fileOffset + offset < 2 ^ 63)
    (h : fd.Seek w offset = some fd') : ∃ written, Seeking.seek written fd.seeking offset Seeking.SEEK_CUR =
      some (((fd.currPos.fileOffset + offset : ℕ) : ℤ), fd'.seeking) := by
  have hnew : Seeking.newOff fd.seeking offset Seeking.SEEK_CUR = (fd.currPos.fileOffset + offset : ℕ) := by
    exact (Int.natCast_add _ _).symm
  refine ⟨flushed (w.written fd.clock) fd.fileSize, ?_⟩
  rw [Seek] at h
  dsimp only at h
  by_cases hchunk : fd.currPos.chunkNum ≠ toInt32 ((fd.currPos.fileOffset + offset) / Chunk.CHUNKSIZE)
  · rw [if_pos hchunk] at h
    obtain ⟨hdone, h⟩ := Option.ite_none_left_eq_some.1 h
    obtain rfl := Option.some.inj h
    have hflush : Seeking.FlushBuffer (flushed (w.written fd.clock) fd.fileSize)
        fd.seeking = ⟨(fd.FlushBuffer w).isDirectory, (fd.FlushBuffer w).fileSize, fd.seeking.currPos,
          (fd.FlushBuffer w).seeking.buffer⟩ := by
      unfold FlushBuffer at hdone ⊢
      by_cases hdirty : fd.buffer.dirty = true
      · rw [if_pos hdirty] at hdone ⊢
        rw [Seeking.FlushBuffer, if_pos (show fd.seeking.buffer.dirty = true from hdirty)]
        by_cases hok : 0 ≤ Written.numIO (w.written fd.clock)
        · have hfine : 0 ≤ Seeking.Written.numIO (flushed (w.written fd.clock) fd.fileSize) := hok
          dsimp only at hdone ⊢
          rw [if_pos hok, if_pos hfine]
          rfl
        · dsimp only at hdone
          rw [if_neg hok] at hdone
          exact absurd hdirty hdone
      · rw [if_neg hdirty]
        exact if_neg hdirty
    rw [seek_nonneg hfile (Or.inr (Or.inl rfl)) hnew hoff
      ((if_neg hchunk).mpr ⟨hflush.symm, Bool.eq_false_of_not_eq_true hdone, rfl⟩)]
    simp only [seeking]
  · rw [if_neg hchunk] at h
    obtain rfl := Option.some.inj h
    rw [seek_nonneg hfile (Or.inr (Or.inl rfl)) hnew hoff ((if_pos (not_not.1 hchunk)).mpr ⟨rfl, rfl⟩)]
    simp only [seeking]

end Unreliable.Fd

namespace Fd

variable {fd fd' : Fd}

/-- A write leaves the buffer as it is. -/
theorem WriteToServer_buffer {offset numIO : ℕ} {buf : List UInt8}
    (h : fd.WriteToServer offset buf = some ( numIO, fd')) : fd'.buffer = fd.buffer := by
  unfold WriteToServer DoLargeWriteToServer at h
  cases hcur : fd.GetCurrChunk with
  | none =>
    rw [hcur] at h
    cases h
  | some chunk =>
    rw [hcur] at h
    dsimp only at h
    cases hchunk : fd.chunks chunk.chunkId with
    | none =>
      rw [hchunk] at h
      cases h
    | some c =>
      rw [hchunk] at h
      dsimp only at h
      split_ifs at h
      · obtain ⟨-, rfl⟩ := Prod.mk.inj (Option.some.inj h)
        rfl
      · obtain ⟨-, rfl⟩ := Prod.mk.inj (Option.some.inj h)
        rfl

theorem FlushBuffer_seeking (h : fd.FlushBuffer = some fd') :
    fd'.buffer.dirty = false ∧ ∃ written, Seeking.FlushBuffer written fd.seeking =
      ⟨false, fd'.fileSize, fd.seeking.currPos, fd'.seeking.buffer⟩ := by
  rw [FlushBuffer] at h
  dsimp only at h
  by_cases hdirty : fd.buffer.dirty = true
  · rw [if_pos hdirty] at h
    cases hwrite : fd.WriteToServer fd.buffer.start (load fd.buffer.buf 0 fd.buffer.length) with
    | none =>
      rw [hwrite] at h
      cases h
    | some r =>
      obtain ⟨ numIO, fd₁⟩ := r
      have hbuffer := WriteToServer_buffer hwrite
      rw [hwrite] at h
      obtain rfl := Option.some.inj h
      refine ⟨rfl, ⟨ numIO, fd₁.fileSize⟩, ?_⟩
      rw [Seeking.FlushBuffer, if_pos (show fd.seeking.buffer.dirty = true from hdirty),
        if_pos (Int.natCast_nonneg numIO)]
      simp only [seeking, Unreliable.Fd.seeking, unreliable, hbuffer, Int.natCast_zero]
  · rw [if_neg hdirty] at h
    obtain rfl := Option.some.inj h
    exact ⟨Bool.eq_false_of_not_eq_true hdirty, ⟨0, 0⟩, if_neg hdirty⟩

/-- **A seek of the descriptor whose servers do not fail is the seek with machine numbers.** -/
theorem Seek_seeking {offset : ℤ} {whence : Whence}
    (hoff : Seeking.newOff fd.seeking offset whence.toInt < 2 ^ 63) (h : fd.Seek offset whence = some fd') :
    ∃ written, Seeking.seek written fd.seeking offset whence.toInt =
      some (Seeking.newOff fd.seeking offset whence.toInt, fd'.seeking) := by
  have hwhence : whence.toInt = Seeking.SEEK_SET ∨ whence.toInt = Seeking.SEEK_CUR ∨
      whence.toInt = Seeking.SEEK_END := by
    cases whence with
    | SEEK_SET => exact Or.inl rfl
    | SEEK_CUR => exact Or.inr (Or.inl rfl)
    | SEEK_END => exact Or.inr (Or.inr rfl)
  have hseek : fd.Seek offset whence = if Seeking.newOff fd.seeking offset whence.toInt < 0 then none
      else fd.seekTo (Seeking.newOff fd.seeking offset whence.toInt).toNat := by
    cases whence with
    | SEEK_SET => rfl
    | SEEK_CUR => rfl
    | SEEK_END => rfl
  rw [hseek] at h
  obtain ⟨hneg, h⟩ := Option.ite_none_left_eq_some.1 h
  obtain ⟨n, hn⟩ := Int.eq_ofNat_of_zero_le (not_lt.1 hneg)
  rw [hn] at hoff h
  rw [Int.toNat_natCast, seekTo] at h
  dsimp only at h
  have hlt : n < 2 ^ 63 := by exact_mod_cast hoff
  by_cases hchunk : fd.currPos.chunkNum ≠ toInt32 (n / Chunk.CHUNKSIZE)
  · rw [if_pos hchunk] at h
    cases hflush : fd.FlushBuffer with
    | none =>
      rw [hflush] at h
      cases h
    | some fd₁ =>
      rw [hflush] at h
      obtain ⟨hclean, written, hwritten⟩ := FlushBuffer_seeking hflush
      obtain ⟨hdone, h⟩ := Option.ite_none_left_eq_some.1 h
      obtain rfl := Option.some.inj h
      refine ⟨written, ?_⟩
      rw [seek_nonneg rfl hwhence hn hlt
        ((if_neg hchunk).mpr ⟨hwritten.symm, Bool.eq_false_of_not_eq_true hdone, rfl⟩), hn]
      simp only [seeking, Unreliable.Fd.seeking, unreliable]
  · rw [if_neg hchunk] at h
    obtain rfl := Option.some.inj h
    refine ⟨⟨0, 0⟩, ?_⟩
    rw [seek_nonneg rfl hwhence hn hlt ((if_pos (not_not.1 hchunk)).mpr ⟨rfl, rfl⟩), hn]
    simp only [seeking, Unreliable.Fd.seeking, unreliable]

end Fd

/-! ## Locating a chunk -/

/-- The attributes with servers know the same chunks. -/
def Knows (cattr : ℤ → Option Location.ChunkAttr) (cattr' : ℤ → Unreliable.ChunkAttr) : Prop :=
  ∀ k, ((cattr k).map (·.chunkId)).getD (-1) = (cattr' k).chunkId

/-- **A chunk is located in the same way for its servers**, when the metaserver names the same chunk. -/
theorem LocateChunk_location {w : Unreliable.Outside} {fd : Unreliable.Fd} {ask : Location.Meta}
    {cattr : ℤ → Option Location.ChunkAttr} (hknows : Knows cattr fd.cattr)
    (hask : (ask fd.currPos.chunkNum.toNat).1 = (w.getAlloc fd.clock).1 ∧
      (ask fd.currPos.chunkNum.toNat).2.chunkId = (w.getAlloc fd.clock).2) :
    (Location.LocateChunk ask cattr fd.currPos.chunkNum).1 = (fd.LocateChunk w).1 ∧
      Knows (Location.LocateChunk ask cattr fd.currPos.chunkNum).2 (fd.LocateChunk w).2.cattr := by
  have hknown : Location.known cattr fd.currPos.chunkNum = true ↔ 0 < fd.GetCurrChunk.chunkId := by
    have hid : _ = fd.GetCurrChunk.chunkId := hknows fd.currPos.chunkNum
    rw [← hid, Location.known]
    cases cattr fd.currPos.chunkNum with
    | none => simp
    | some chunk => simp
  unfold Location.LocateChunk Unreliable.Fd.LocateChunk
  by_cases hneg : fd.currPos.chunkNum < 0
  · rw [if_pos hneg, if_pos hneg]
    exact ⟨rfl, hknows⟩
  rw [if_neg hneg, if_neg hneg]
  by_cases hid : 0 < fd.GetCurrChunk.chunkId
  · rw [if_pos (hknown.2 hid), if_pos hid]
    exact ⟨rfl, hknows⟩
  rw [if_neg (mt hknown.1 hid), if_neg hid]
  dsimp only
  rw [hask.1]
  by_cases hstatus : (w.getAlloc fd.clock).1 < 0
  · rw [if_pos hstatus, if_pos hstatus]
    exact ⟨rfl, hknows⟩
  rw [if_neg hstatus, if_neg hstatus]
  refine ⟨rfl, fun k => ?_⟩
  change ((Function.update cattr fd.currPos.chunkNum (some (ask fd.currPos.chunkNum.toNat).2) k).map _).getD (-1) =
    (Function.update fd.cattr fd.currPos.chunkNum { chunkId := (w.getAlloc fd.clock).2 } k).chunkId
  rcases eq_or_ne k fd.currPos.chunkNum with rfl | hne
  · simp [hask.2]
  · simp only [Function.update_of_ne hne]
    exact hknows k

end Kfs.Client
