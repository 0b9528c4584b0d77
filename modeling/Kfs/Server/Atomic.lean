import Kfs.Fs.Atomic
import Kfs.Server.Spec

/-!
# Failed operations change nothing

An operation of the name space that returns a negative status in a reachable state leaves every item of
the tree as it is.

* `handle_tidy`, `Reachable.tidy`: the invariant on ids and names holds in every reachable state;
* **`negative_status_unchanged`**.
-/

namespace Kfs

variable {env : Env} {fs fs' : Fs} {l l' : List Meta} {dir fid st : ℤ} {name : Str}

/-! ## The invariant on ids and names in runs -/

theorem Tidy.nextChunk (h : Tidy fs) : Tidy fs.nextChunk :=
  h.of_imp le_rfl (fun _ hm => hm) fun f hf => ⟨f, hf, rfl, rfl⟩

theorem startAllocate_tidy {s : Sys} {o : Out} {offset : ℤ} {reply : LeaseReply} {placed : Bool}
    (h : Tidy s.fs) (ha : startAllocate s fid offset reply placed = some o) : Tidy o.sys.fs := by
  rcases startAllocate_fs ha with he | he
  · exact he ▸ h
  · exact he ▸ h.nextChunk

theorem changeIncarnationNumber_tidy {s : Sys} (h : Tidy s.fs) :
    Tidy (changeIncarnationNumber s).sys.fs := by
  unfold changeIncarnationNumber done
  dsimp only
  split_ifs
  · exact h.of_imp le_rfl (fun _ hm => hm) fun f hf => ⟨f, hf, rfl, rfl⟩
  · exact h

/-- **Every step keeps the ids and names tidy.** -/
theorem handle_tidy {s : Sys} {req : Req} {o : Out} (h : Tidy s.fs) (ho : Handled env s req o) :
    Tidy o.sys.fs := by
  cases ho with
  | refused _ => exact h
  | create hd hc =>
    obtain ⟨f, hf, -⟩ := is_dir_iff.mp hd
    exact create_tidy h (h.getFattr_le hf) hc
  | mkdir hd hm =>
    obtain ⟨f, hf, ht⟩ := is_dir_iff.mp hd
    refine mkdir_tidy h (h.getFattr_le hf) (fun _ f' hf' he => ?_) hm
    obtain ⟨hfm, hfi⟩ := getFattr_some hf
    rw [h.type_eq f' f hf' hfm (by rw [he, hfi]), ht]
  | remove hr => exact (removeF_tidy env 2 h hr).1
  | rmdir hr => exact (rmdir_tidy h hr).1
  | rename hr => exact (renameWith_tidy (removeF_tidy env 2) h hr).1
  | allocate ha => exact startAllocate_tidy h ha
  | assigned hp ha => exact assignChunkId_tidy h ha
  | layoutFailed hp => exact changeIncarnationNumber_tidy (s := { s with pending := _ }) h
  | truncate ht _ => exact truncate_tidy h ht
  | truncateAlloc ht _ ha =>
    have h' := truncate_tidy h ht
    have := startAllocate_tidy (s := { s with fs := _ }) h' ha
    exact this
  | changeFileReplication hc => exact changeFileReplication_tidy h hc
  | changeIncarnationNumber => exact changeIncarnationNumber_tidy h
  | cleanupDumpster hc => exact cleanupDumpster_tidy h hc
  | emptyDumpsterDir hc => exact emptyDumpsterDir_tidy h hc

theorem newTree_tidy (h : newTree env = some fs) : Tidy fs := by
  unfold newTree at h
  obtain ⟨⟨st, id, fs'⟩, hm, rfl⟩ := Option.map_eq_some_iff.mp h
  exact mkdir_tidy ⟨le_rfl, by simp, by simp, by simp, by simp, by simp⟩ le_rfl (by simp) hm

theorem Reachable.tidy {s : Sys} (h : Reachable s) : Tidy s.fs := by
  obtain ⟨env, fs, es, log, hn, hr⟩ := h
  exact hr.invariant (P := fun s => Tidy s.fs) (newTree_tidy hn)
    fun s e o h _ ho => handle_tidy h (handle_cases ho)

/-! ## Failed operations -/

/-- **A failed operation of the name space changes no item of the tree**, in every reachable state and
for all arguments. -/
theorem negative_status_unchanged {s : Sys} (hs : Reachable s) (env : Env) (dir : ℤ) (name : Str)
    (fs' : Fs) (st : ℤ) (hst : st < 0) :
    (∀ newFid numReplicas exclusive id,
      create env s.fs dir name newFid numReplicas exclusive = some (st, id, fs') →
        fs'.leaves = s.fs.leaves) ∧
    (remove env s.fs dir name = some (st, fs') → fs'.leaves = s.fs.leaves) ∧
    (∀ newFid id, mkdir env s.fs dir name newFid = some (st, id, fs') → fs'.leaves = s.fs.leaves) ∧
    (rmdir s.fs dir name = some (st, fs') → fs'.leaves = s.fs.leaves) ∧
    (∀ newname overwrite, rename env s.fs dir name newname overwrite = some (st, fs') →
      fs'.leaves = s.fs.leaves) := by
  have h := hs.tidy
  have hne : st ≠ 0 := by omega
  refine ⟨fun newFid n ex id hc => create_atomic h hc hne, fun hr => removeF_atomic env 2 h hr hne,
    fun newFid id hm => ?_, fun hr => rmdir_atomic hr hne,
    fun newname ow hr => renameWith_atomic (removeF_atomic env 2) h hr hne⟩
  rcases mkdir_spec hm with ⟨-, rfl⟩ | ⟨h0, -⟩
  · rfl
  · omega

/-- All chunks leased, at time 0. -/
def busyEnv : Env := ⟨⟨0, 0⟩, fun _ => true⟩

/-- A file with one chunk that is removed while it is busy. -/
def busyRemoval : List Event :=
  [⟨false, busyEnv, .create ROOTFID ['f'] 1 false⟩, ⟨false, busyEnv, .allocate 3 0 .valid true⟩,
    ⟨false, busyEnv, .layoutDone 0 true⟩, ⟨false, busyEnv, .remove ROOTFID ['f']⟩]

/-- The state after `busyRemoval`: the file is in the dumpster, which has id 4. -/
def dumped : Option Sys :=
  (newTree busyEnv).bind fun fs => (exec (fun _ _ => True) ⟨fs, []⟩ busyRemoval).map Prod.fst

theorem reachable_dumped {s : Sys} (h : dumped = some s) : Reachable s := by
  obtain ⟨fs, hn, h⟩ := Option.bind_eq_some_iff.mp h
  obtain ⟨⟨s, log⟩, hx, rfl⟩ := Option.map_eq_some_iff.mp h
  exact ⟨busyEnv, fs, busyRemoval, log, hn, Run.of_exec hx⟩

/-- A busy file cannot be removed from the dumpster, and the attempt changes nothing. -/
theorem remove_dumped_unchanged : ∃ s fs', dumped = some s ∧
    remove busyEnv s.fs 4 ['f', '1'] = some (-EEXIST, fs') ∧ fs'.leaves = s.fs.leaves := by
  have hr : (dumped.bind fun s => (remove busyEnv s.fs 4 ['f', '1']).map Prod.fst) =
      some (-EEXIST) := by decide +kernel
  obtain ⟨s, hs, hr⟩ := Option.bind_eq_some_iff.mp hr
  obtain ⟨⟨st, fs'⟩, hr, rfl⟩ := Option.map_eq_some_iff.mp hr
  exact ⟨s, fs', hs, hr, (negative_status_unchanged (reachable_dumped hs) busyEnv 4 ['f', '1'] fs'
    (-EEXIST) (by decide)).2.1 hr⟩

end Kfs
