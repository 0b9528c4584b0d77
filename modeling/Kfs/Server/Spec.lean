import Kfs.Fs.Spec
import Kfs.Server.Model

/-!
# What a step does

* `Handled`, `handle_cases`: the ways in which the handlers can end;
* `allocateChunkId_spec`, `startAllocate_spec`: those of the first part of `handle_allocate`.
-/

namespace Kfs

/-- The ways in which a step can end. -/
inductive Handled (env : Env) (s : Sys) : Req → Out → Prop
  | refused {req st} : st < 0 → Handled env s req (refuse s st)
  | create {dir name n exclusive st id fs'} : is_dir s.fs.leaves dir = true →
      create env s.fs dir name 0 n exclusive = some (st, id, fs') →
      Handled env s (.create dir name n exclusive) (done s st fs' (.create dir name id n))
  | mkdir {dir name st id fs'} : is_dir s.fs.leaves dir = true →
      mkdir env s.fs dir name 0 = some (st, id, fs') →
      Handled env s (.mkdir dir name) (done s st fs' (.mkdir dir name id))
  | remove {dir name st fs'} : remove env s.fs dir name = some (st, fs') →
      Handled env s (.remove dir name) (done s st fs' (.remove dir name))
  | rmdir {dir name st fs'} : rmdir s.fs dir name = some (st, fs') →
      Handled env s (.rmdir dir name) (done s st fs' (.rmdir dir name))
  | rename {dir oldname newname overwrite st fs'} :
      rename env s.fs dir oldname newname overwrite = some (st, fs') →
      Handled env s (.rename dir oldname newname overwrite)
        (done s st fs' (.rename dir oldname newname))
  | allocate {fid offset reply placed o} : startAllocate s fid offset reply placed = some o →
      Handled env s (.allocate fid offset reply placed) o
  | assigned {i a st fs'} : s.pending[i]? = some a →
      assignChunkId env s.fs a.fid a.offset a.chunkId a.chunkVersion = (st, fs') →
      Handled env s (.layoutDone i true) (done { s with pending := s.pending.eraseIdx i } st fs'
        (.allocate a.fid a.offset a.chunkId a.chunkVersion))
  | layoutFailed {i a} : s.pending[i]? = some a →
      Handled env s (.layoutDone i false)
        (changeIncarnationNumber { s with pending := s.pending.eraseIdx i })
  | truncate {fid offset reply placed st a fs'} :
      truncate env s.fs fid offset = some (st, a, fs') → st ≤ 0 →
      Handled env s (.truncate fid offset reply placed) (done s st fs' (.truncate fid offset))
  | truncateAlloc {fid offset reply placed st a fs' o} :
      truncate env s.fs fid offset = some (st, a, fs') → 0 < st →
      startAllocate { s with fs := fs' } fid a reply placed = some o →
      Handled env s (.truncate fid offset reply placed) { o with status := none, log := [] }
  | changeFileReplication {fid n st fs'} : changeFileReplication s.fs fid n = (st, fs') →
      Handled env s (.changeFileReplication fid n) ⟨{ s with fs := fs' }, some st, []⟩
  | changeIncarnationNumber : Handled env s .changeIncarnationNumber (changeIncarnationNumber s)
  | cleanupDumpster {fs'} : cleanupDumpster env s.fs = some fs' →
      Handled env s .cleanupDumpster ⟨{ s with fs := fs' }, none, []⟩
  | emptyDumpsterDir {fs'} : emptyDumpsterDir env s.fs = some fs' →
      Handled env s .emptyDumpsterDir ⟨{ s with fs := fs' }, none, []⟩

/-! ## Allocation -/

variable {fs fs' : Fs} {s : Sys} {o : Out} {fid offset st : ℤ}

/-- The state of an allocation of a new chunk: only the seed of the chunk ids has changed. -/
def Fs.nextChunk (fs : Fs) : Fs := { fs with chunkID := fs.chunkID + 1 }

/-- A live `allocateChunkId` fails, finds the chunk, or generates an id. -/
theorem allocateChunkId_spec {cid v : ℤ}
    (h : allocateChunkId fs fid offset 0 true = some (st, cid, v, fs')) :
    (getFattr fs.leaves fid = none ∧ st = -ENOENT ∧ fs' = fs) ∨
      ∃ fa, getFattr fs.leaves fid = some fa ∧ fa.numReplicas ≠ 0 ∧ offset.tmod CHUNKSIZE = 0 ∧
        ((∃ c, getChunk fs.leaves fid (chunkStartOffset offset) = some c ∧ st = -EEXIST ∧
            cid = c.chunkId ∧ v = c.chunkVersion ∧ fs' = fs) ∨
          (getChunk fs.leaves fid (chunkStartOffset offset) = none ∧ st = 0 ∧
            cid = fs.chunkID + 1 ∧ v = fs.chunkVersionInc ∧ fs' = fs.nextChunk)) := by
  unfold allocateChunkId at h
  rcases hf : getFattr fs.leaves fid with - | fa
  · obtain ⟨rfl, -, -, rfl⟩ : -ENOENT = st ∧ 0 = cid ∧ 0 = v ∧ fs = fs' := by simpa [hf] using h
    exact Or.inl ⟨rfl, rfl, rfl⟩
  by_cases hr : fa.numReplicas = 0
  · simp [hf, hr] at h
  by_cases ho : offset.tmod CHUNKSIZE = 0
  swap
  · simp [hf, hr, ho] at h
  refine Or.inr ⟨fa, rfl, hr, ho, ?_⟩
  simp only [hf, hr, ho, and_false, if_false, ne_eq, not_true_eq_false, if_true] at h
  rcases hc : getChunk fs.leaves fid (chunkStartOffset offset) with - | c
  · simp only [hc, Option.some.injEq, Prod.mk.injEq] at h
    obtain ⟨rfl, rfl, rfl, rfl⟩ := h
    exact Or.inr ⟨rfl, rfl, rfl, rfl, rfl⟩
  · simp only [hc, Option.some.injEq, Prod.mk.injEq] at h
    obtain ⟨rfl, rfl, rfl, rfl⟩ := h
    exact Or.inl ⟨c, rfl, rfl, rfl, rfl, rfl⟩

/-- **The first part of an allocation** refuses, completes with the chunk that is there, or adds a
waiting allocation; the items of the tree stay as they are. -/
theorem startAllocate_spec {reply : LeaseReply} {placed : Bool}
    (h : startAllocate s fid offset reply placed = some o) :
    (getFattr s.fs.leaves fid = none ∧ o = refuse s (-ENOENT)) ∨
      ∃ fa, getFattr s.fs.leaves fid = some fa ∧ fa.numReplicas ≠ 0 ∧ offset.tmod CHUNKSIZE = 0 ∧
        ((∃ c, getChunk s.fs.leaves fid (chunkStartOffset offset) = some c ∧
            ((∃ st, reply = .refused st ∧ o = refuse s st) ∨
              (reply = .valid ∧ o = done s 0 s.fs (.allocate fid offset c.chunkId c.chunkVersion)) ∨
              (reply = .fresh ∧ o = ⟨{ s with pending := s.pending ++
                [⟨fid, offset, c.chunkId, c.chunkVersion + s.fs.chunkVersionInc⟩] }, none, []⟩))) ∨
          (getChunk s.fs.leaves fid (chunkStartOffset offset) = none ∧
            ((placed = true ∧ o = ⟨⟨s.fs.nextChunk, s.pending ++
                [⟨fid, offset, s.fs.chunkID + 1, s.fs.chunkVersionInc⟩]⟩, none, []⟩) ∨
              (placed = false ∧ o = refuse { s with fs := s.fs.nextChunk } (-28))))) := by
  unfold startAllocate at h
  rcases ha : allocateChunkId s.fs fid offset 0 true with - | ⟨st, cid, v, fs'⟩
  · simp [ha] at h
  simp only [ha, Option.bind_eq_bind, Option.bind_some, Option.pure_def] at h
  rcases allocateChunkId_spec ha with
    ⟨hf, rfl, rfl⟩ | ⟨fa, hf, hr, ho, ⟨c, hc, rfl, rfl, rfl, rfl⟩ | ⟨hc, rfl, rfl, rfl, rfl⟩⟩
  · rw [if_pos (by decide)] at h
    exact Or.inl ⟨hf, (Option.some.inj h).symm⟩
  · rw [if_neg (by decide), if_pos rfl] at h
    refine Or.inr ⟨fa, hf, hr, ho, Or.inl ⟨c, hc, ?_⟩⟩
    cases reply with
    | refused st => exact Or.inl ⟨st, rfl, (Option.some.inj h).symm⟩
    | valid => exact Or.inr (Or.inl ⟨rfl, (Option.some.inj h).symm⟩)
    | fresh => exact Or.inr (Or.inr ⟨rfl, (Option.some.inj h).symm⟩)
  · rw [if_neg (by decide), if_neg (by decide)] at h
    refine Or.inr ⟨fa, hf, hr, ho, Or.inr ⟨hc, ?_⟩⟩
    cases placed with
    | true => exact Or.inl ⟨rfl, by simpa using h.symm⟩
    | false => exact Or.inr ⟨rfl, by simpa using h.symm⟩

/-- An allocation leaves the tree and the seed of the file ids alone. -/
theorem startAllocate_fs {reply : LeaseReply} {placed : Bool}
    (h : startAllocate s fid offset reply placed = some o) :
    o.sys.fs = s.fs ∨ o.sys.fs = s.fs.nextChunk := by
  rcases startAllocate_spec h with
    ⟨-, rfl⟩ | ⟨fa, -, -, -, ⟨c, -, ⟨st, -, rfl⟩ | ⟨-, rfl⟩ | ⟨-, rfl⟩⟩ | ⟨-, ⟨-, rfl⟩ | ⟨-, rfl⟩⟩⟩
  · exact Or.inl rfl
  · exact Or.inl rfl
  · exact Or.inl rfl
  · exact Or.inl rfl
  · exact Or.inr rfl
  · exact Or.inr rfl

/-! ## The handlers -/

theorem is_dir_iff {l : List Meta} : is_dir l fid = true ↔ ∃ f, getFattr l fid = some f ∧ f.type = .dir := by
  unfold is_dir
  rcases getFattr l fid with - | f <;> simp

theorem handle_cases {worm : Bool} {env : Env} {req : Req} (h : handle worm env s req = some o) :
    Handled env s req o := by
  cases req with
  | create dir name n exclusive =>
    by_cases hd : is_dir s.fs.leaves dir = true
    · simp only [handle, hd, not_true_eq_false, if_false, Option.map_eq_some_iff] at h
      obtain ⟨⟨st, id, fs'⟩, hc, rfl⟩ := h
      exact .create hd hc
    · obtain rfl : refuse s (-ENOTDIR) = o := by simpa [handle, hd] using h
      exact .refused (by decide)
  | mkdir dir name =>
    by_cases hd : is_dir s.fs.leaves dir = true
    · simp only [handle, hd, not_true_eq_false, if_false, Option.map_eq_some_iff] at h
      obtain ⟨⟨st, id, fs'⟩, hc, rfl⟩ := h
      exact .mkdir hd hc
    · obtain rfl : refuse s (-ENOTDIR) = o := by simpa [handle, hd] using h
      exact .refused (by decide)
  | remove dir name =>
    by_cases hw : worm = true ∧ ¬ isWormMutationAllowed name = true
    · obtain rfl : refuse s (-EPERM) = o := by simpa only [handle, if_pos hw, Option.some.injEq] using h
      exact .refused (by decide)
    · simp only [handle, if_neg hw, Option.map_eq_some_iff] at h
      obtain ⟨⟨st, fs'⟩, hr, rfl⟩ := h
      exact .remove hr
  | rmdir dir name =>
    by_cases hw : worm = true ∧ ¬ isWormMutationAllowed name = true
    · obtain rfl : refuse s (-EPERM) = o := by simpa only [handle, if_pos hw, Option.some.injEq] using h
      exact .refused (by decide)
    · simp only [handle, if_neg hw, Option.map_eq_some_iff] at h
      obtain ⟨⟨st, fs'⟩, hr, rfl⟩ := h
      exact .rmdir hr
  | rename dir oldname newname overwrite =>
    rcases hw : wormForbids worm s.fs.leaves oldname newname with - | - | -
    · simp [handle, hw] at h
    · simp only [handle, hw, Option.map_eq_some_iff] at h
      obtain ⟨⟨st, fs'⟩, hr, rfl⟩ := h
      exact .rename hr
    · obtain rfl : refuse s (-EPERM) = o := by simpa [handle, hw] using h
      exact .refused (by decide)
  | allocate fid offset reply placed => exact .allocate h
  | layoutDone i ok =>
    rcases hp : s.pending[i]? with - | a
    · simp [handle, hp] at h
    · simp only [handle, hp] at h
      cases ok with
      | true => exact Option.some.inj h ▸ .assigned hp Prod.mk.eta.symm
      | false => exact Option.some.inj h ▸ .layoutFailed hp
  | truncate fid offset reply placed =>
    cases worm with
    | true => exact Option.some.inj h ▸ .refused (by decide)
    | false =>
      rcases ht : truncate env s.fs fid offset with - | ⟨st, a, fs'⟩
      · simp [handle, ht] at h
      simp only [handle, ht, Bool.false_eq_true, if_false] at h
      by_cases hst : st > 0
      · rw [if_pos hst, Option.map_eq_some_iff] at h
        obtain ⟨o', ho, rfl⟩ := h
        exact .truncateAlloc ht hst ho
      · rw [if_neg hst] at h
        exact Option.some.inj h ▸ .truncate ht (not_lt.mp hst)
  | changeFileReplication fid n => exact Option.some.inj h ▸ .changeFileReplication Prod.mk.eta.symm
  | changeIncarnationNumber => exact Option.some.inj h ▸ .changeIncarnationNumber
  | cleanupDumpster =>
    obtain ⟨fs', hc, rfl⟩ := Option.map_eq_some_iff.mp h
    exact .cleanupDumpster hc
  | emptyDumpsterDir =>
    obtain ⟨fs', hc, rfl⟩ := Option.map_eq_some_iff.mp h
    exact .emptyDumpsterDir hc

end Kfs
