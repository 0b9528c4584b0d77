import Kfs.Fs.Truncate

/-!
# File sizes

The metaserver asks a chunk server for the size of the last chunk of a file and computes the size of the file from it
when the reply is processed. It takes the number of chunks for the number of the last chunk.

* `handle_chunk_size_done`;
* `SizeRecorded`: the size that is recorded is the end of the last chunk;
* `offset_last_iff`: when the number of chunks tells where the last one is;
* **`handle_chunk_size_done_exact`**.
-/

namespace Kfs

variable {fs : Fs} {fa : MetaFattr} {fid : ℤ}

/-- `MetaChunkSize`. -/
structure MetaChunkSize where
  fid : ℤ
  chunkId : ℤ
  chunkSize : ℤ
  status : ℤ := 0

/-- `fa->filesize = n`. -/
def recordSize (fs : Fs) (fid : ℤ) (fa : MetaFattr) (n : ℤ) : Fs :=
  { fs with leaves := setFattr fs.leaves fid { fa with filesize := n } }

/-- The reply of a chunk server with the size of a chunk is processed. -/
def handle_chunk_size_done (fs : Fs) (req : MetaChunkSize) : MetaChunkSize × Fs :=
  if req.chunkSize < 0 then ({ req with status := -1 }, fs)
  else
    match getFattr fs.leaves req.fid with
    | none => ({ req with status := 0 }, fs)
    | some fa =>
      if fa.type ≠ .file then ({ req with status := 0 }, fs)
      else
        match (getalloc fs.leaves fa.id).getLast? with
        | none => (req, fs)
        | some lastChunk =>
          -- only the last chunk of the file tells the size
          if req.chunkId = lastChunk.chunkId then
            ({ req with status := 0 }, recordSize fs req.fid fa ((fa.chunkcount - 1) * CHUNKSIZE + req.chunkSize))
          else ({ req with status := 0 }, fs)

theorem getFattr_recordSize (h : getFattr fs.leaves fid = some fa) (n : ℤ) :
    getFattr (recordSize fs fid fa n).leaves fid = some { fa with filesize := n } :=
  getFattr_setFattr h (getFattr_some h).2

/-- The reply is about the last chunk of a file. -/
def IsLast (fs : Fs) (req : MetaChunkSize) (fa : MetaFattr) (c : MetaChunkInfo) : Prop :=
  getFattr fs.leaves req.fid = some fa ∧ fa.type = .file ∧ (getalloc fs.leaves req.fid).getLast? = some c ∧
    req.chunkId = c.chunkId

/-- The size that is recorded for the last chunk is its offset and the size that came in, and nothing else changes
anything. -/
structure SizeRecorded (fs : Fs) (req : MetaChunkSize) : Prop where
  last : ∀ fa c, IsLast fs req fa c → 0 ≤ req.chunkSize →
    (handle_chunk_size_done fs req).2 = recordSize fs req.fid fa (c.offset + req.chunkSize) ∧
    getFattr (handle_chunk_size_done fs req).2.leaves req.fid = some { fa with filesize := c.offset + req.chunkSize }
  other : ((∀ fa c, ¬ IsLast fs req fa c) ∨ req.chunkSize < 0) → (handle_chunk_size_done fs req).2 = fs

theorem handle_chunk_size_done_last {req : MetaChunkSize} {c : MetaChunkInfo} (h : IsLast fs req fa c)
    (hsize : 0 ≤ req.chunkSize) : (handle_chunk_size_done fs req).2 =
      recordSize fs req.fid fa ((fa.chunkcount - 1) * CHUNKSIZE + req.chunkSize) := by
  obtain ⟨hf, ht, hlast, hid⟩ := h
  have hfid : fa.id = req.fid := (getFattr_some hf).2
  simp [handle_chunk_size_done, not_lt.mpr hsize, hf, ht, hfid, hlast, hid]

theorem handle_chunk_size_done_other {req : MetaChunkSize}
    (h : (∀ fa c, ¬ IsLast fs req fa c) ∨ req.chunkSize < 0) : (handle_chunk_size_done fs req).2 = fs := by
  rw [handle_chunk_size_done]
  split_ifs with hneg
  · rfl
  · cases hf : getFattr fs.leaves req.fid with
    | none => rfl
    | some fa =>
      have hfid : fa.id = req.fid := (getFattr_some hf).2
      simp only
      split_ifs with ht
      · rfl
      · cases hlast : (getalloc fs.leaves fa.id).getLast? with
        | none => rfl
        | some c =>
          rw [hfid] at hlast
          have hne : req.chunkId ≠ c.chunkId := fun hid =>
            h.resolve_right hneg fa c ⟨hf, not_not.mp ht, hlast, hid⟩
          simp only [if_neg hne]

/-- **The size from the last chunk.** The size that is recorded is right exactly when the last chunk lies where the
number of chunks says. -/
theorem handle_chunk_size_done_exact (fs : Fs) (req : MetaChunkSize) : SizeRecorded fs req ↔
    ∀ fa c, IsLast fs req fa c → 0 ≤ req.chunkSize → c.offset = (fa.chunkcount - 1) * CHUNKSIZE := by
  constructor
  · intro h fa c hlast hsize
    have hget := (h.last fa c hlast hsize).2
    rw [handle_chunk_size_done_last hlast hsize, getFattr_recordSize hlast.1] at hget
    have hfilesize := congrArg MetaFattr.filesize (Option.some.inj hget)
    dsimp only at hfilesize
    omega
  · intro h
    refine ⟨fun fa c hlast hsize => ?_, handle_chunk_size_done_other⟩
    rw [handle_chunk_size_done_last hlast hsize, ← h fa c hlast hsize]
    exact ⟨rfl, getFattr_recordSize hlast.1 _⟩

/-! ## Holes -/

/-- In a list that goes up in steps of at least `d`, so does the distance of two places. -/
theorem getElem_add_mul_le {d : ℤ} {l : List ℤ} (h : l.Pairwise fun x y => x + d ≤ y) {i j : ℕ} (hij : i ≤ j)
    (hj : j < l.length) : l[i] + (j - i : ℤ) * d ≤ l[j] := by
  induction j, hij using Nat.le_induction with
  | base => simp
  | succ j hij ih =>
    have hstep : l[j] + d ≤ l[j + 1] := List.pairwise_iff_getElem.mp h j (j + 1) (by omega) hj (Nat.lt_succ_self j)
    have hmul : ((j + 1 : ℕ) - i : ℤ) * d = (j - i : ℤ) * d + d := by
      push_cast
      ring
    have hj' := ih (by omega)
    rw [hmul]
    omega

/-- The number of chunks tells where the last one lies exactly when there is no hole in front of it. -/
theorem offset_last_iff (ho : Ordered (fs.leaves.map Meta.key))
    (hn : ((getalloc fs.leaves fid).map MetaChunkInfo.offset).Nodup)
    (hc : fa.chunkcount = (getalloc fs.leaves fid).length)
    (haligned : ∀ c ∈ getalloc fs.leaves fid, CHUNKSIZE ∣ c.offset ∧ 0 ≤ c.offset) {c : MetaChunkInfo}
    (hlast : (getalloc fs.leaves fid).getLast? = some c) : c.offset = (fa.chunkcount - 1) * CHUNKSIZE ↔
      ∀ i (hi : i < (getalloc fs.leaves fid).length), (getalloc fs.leaves fid)[i].offset = i * CHUNKSIZE := by
  have hsteps : ((getalloc fs.leaves fid).map MetaChunkInfo.offset).Pairwise fun x y => x + CHUNKSIZE ≤ y := by
    refine List.pairwise_map.mpr ((getalloc_lt ho hn).imp_of_mem fun {a b} ha hb hlt => ?_)
    have hdvd : CHUNKSIZE ∣ b.offset - a.offset := dvd_sub (haligned b hb).1 (haligned a ha).1
    have hle := Int.le_of_dvd (by omega) hdvd
    omega
  rw [hc]
  generalize getalloc fs.leaves fid = cs at *
  obtain ⟨k, hk⟩ : ∃ k, cs.length = k + 1 := by
    cases cs with
    | nil => cases hlast
    | cons a cs => exact ⟨cs.length, rfl⟩
  have hend : cs[k].offset = c.offset := by
    rw [List.getLast?_eq_getElem?, hk] at hlast
    obtain ⟨-, rfl⟩ := List.getElem?_eq_some_iff.mp hlast
    rfl
  have hcount : ((cs.length : ℕ) - 1 : ℤ) = k := by omega
  rw [hcount, ← hend]
  constructor
  · intro heq i hi
    -- neither in front of its place nor behind it
    have hfirst := (haligned cs[0] (List.getElem_mem _)).2
    have hlow := getElem_add_mul_le hsteps (Nat.zero_le i) (by simpa using hi)
    have hhigh := getElem_add_mul_le hsteps (show i ≤ k by omega) (by simp [hk])
    simp only [List.getElem_map, Nat.cast_zero, sub_zero] at hlow hhigh
    have hmul : (k - i : ℤ) * CHUNKSIZE = k * CHUNKSIZE - i * CHUNKSIZE := by ring
    omega
  · intro h
    exact h k (by omega)

/-- A file whose only chunk is the second one. -/
def holeInFront : Fs :=
  ⟨[.fattr ⟨3, .file, 1, ⟨0, 0⟩, ⟨0, 0⟩, ⟨0, 0⟩, 1, -1⟩, .chunkinfo ⟨3, CHUNKSIZE, 7, 1⟩], 3, 7, 1, 1⟩

/-- Its size is taken for that of a file with the first chunk only. -/
theorem handle_chunk_size_done_hole :
    IsLast holeInFront ⟨3, 7, 5, 0⟩ ⟨3, .file, 1, ⟨0, 0⟩, ⟨0, 0⟩, ⟨0, 0⟩, 1, -1⟩ ⟨3, CHUNKSIZE, 7, 1⟩ ∧
    (getFattr (handle_chunk_size_done holeInFront ⟨3, 7, 5, 0⟩).2.leaves 3).map MetaFattr.filesize = some 5 ∧
    ¬ SizeRecorded holeInFront ⟨3, 7, 5, 0⟩ := by
  have hlast : IsLast holeInFront ⟨3, 7, 5, 0⟩ ⟨3, .file, 1, ⟨0, 0⟩, ⟨0, 0⟩, ⟨0, 0⟩, 1, -1⟩ ⟨3, CHUNKSIZE, 7, 1⟩ := by
    unfold IsLast
    decide
  have hsize : (getFattr (handle_chunk_size_done holeInFront ⟨3, 7, 5, 0⟩).2.leaves 3).map MetaFattr.filesize =
      some 5 := by decide
  refine ⟨hlast, hsize, fun h => ?_⟩
  rw [(h.last _ _ hlast (by decide)).2] at hsize
  exact absurd hsize (by decide)

end Kfs
