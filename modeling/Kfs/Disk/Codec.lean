import Kfs.Disk.Read
import Kfs.Fs.Dumpster

/-!
# What is written is read back

* `LogRec.Readable`: names that are legal, no field with the value that stands for a parse error, and a
  short number of replicas;
* **`readLine_line`**: the line of such a record is read as the record;
* `LogRec.names`, `line_not_mem`: names without control characters make lines without them;
* **`playlog_records`**: a file of whole lines is replayed record by record.
-/

namespace Kfs

open Lib

variable {env : Env} {fs : Fs}

/-! ## One line -/

/-- The records that the pops take apart the way they were put together. -/
def LogRec.Readable : LogRec → Prop
  | .create dir name fid n => dir ≠ -1 ∧ legalname name = true ∧ fid ≠ -1 ∧ 0 ≤ n ∧ n < 32768
  | .mkdir dir name fid => dir ≠ -1 ∧ legalname name = true ∧ fid ≠ -1
  | .remove dir name => dir ≠ -1 ∧ legalname name = true
  | .rmdir dir name => dir ≠ -1 ∧ legalname name = true
  | .rename dir oldname _ => dir ≠ -1 ∧ legalname oldname = true
  | .allocate fid offset chunkId chunkVersion =>
    fid ≠ -1 ∧ offset ≠ -1 ∧ chunkId ≠ -1 ∧ chunkVersion ≠ -1
  | .truncate fid offset => fid ≠ -1 ∧ offset ≠ -1
  | .chunkVersionInc _ => True

instance (r : LogRec) : Decidable r.Readable := by
  cases r <;> unfold LogRec.Readable <;> infer_instance

theorem slash_not_mem_num (n : ℤ) : '/' ∉ num n := num_not_mem n (by decide) (by decide)

theorem splitOn_num (n : ℤ) : (num n).splitOn '/' = [num n] :=
  List.splitOn_eq_singleton (slash_not_mem_num n)

theorem splitOn_name {name : Str} (h : legalname name = true) : name.splitOn '/' = [name] :=
  List.splitOn_eq_singleton (legalname_iff.mp h).2

/-- The components of a line: its fields, with the new path of a renaming taken apart. -/
theorem splitOn_line (r : LogRec) : r.line.splitOn '/' = r.fields.flatMap fun f => f.splitOn '/' :=
  splitOn_joinSep (by cases r <;> simp [LogRec.fields])

theorem line_ne_nil (r : LogRec) : r.line ≠ [] := by
  cases r <;> simp [LogRec.line, LogRec.fields, joinSep]

/-- The components are the fields when no field has a slash. -/
theorem components_eq {fields : List Str} (h : ∀ f ∈ fields, '/' ∉ f) :
    (fields.flatMap fun f => f.splitOn '/') = fields := by
  induction fields with
  | nil => rfl
  | cons f fields ih =>
    rw [List.flatMap_cons, List.splitOn_eq_singleton (h f List.mem_cons_self),
      ih fun g hg => h g (List.mem_cons_of_mem _ hg), List.singleton_append]

/-- No field of a readable record has a slash, but for the new path of a renaming. -/
theorem fields_no_slash {r : LogRec} (h : r.Readable) (hr : ∀ dir old new, r ≠ .rename dir old new) :
    ∀ f ∈ r.fields, '/' ∉ f := by
  have hs : ∀ n, '/' ∉ num n := slash_not_mem_num
  cases r with
  | rename dir old new => exact absurd rfl (hr dir old new)
  | create dir name fid n => simp [LogRec.fields, hs, (legalname_iff.mp h.2.1).2]
  | mkdir dir name fid => simp [LogRec.fields, hs, (legalname_iff.mp h.2.1).2]
  | remove dir name => simp [LogRec.fields, hs, (legalname_iff.mp h.2).2]
  | rmdir dir name => simp [LogRec.fields, hs, (legalname_iff.mp h.2).2]
  | allocate fid offset cid v => simp [LogRec.fields, hs]
  | truncate fid offset => simp [LogRec.fields, hs]
  | chunkVersionInc n => simp [LogRec.fields, hs]

/-- **The line of a readable record is read as the record.** -/
theorem readLine_line {r : LogRec} (h : r.Readable) : readLine r.line = some (some r) := by
  unfold readLine
  rw [if_neg (line_ne_nil r), splitOn_line]
  cases r with
  | create dir name fid n =>
    rw [components_eq (fields_no_slash h (by simp))]
    obtain ⟨hd, hn, hf, h₀, h₁⟩ := h
    change (popCreate _).map some = _
    simp [popCreate, pop_parent, LogRec.fields, pop_fid_num hd, pop_name_cons (legalname_iff.mp hn).1,
      pop_fid_num hf, pop_short_num h₀ h₁]
  | mkdir dir name fid =>
    rw [components_eq (fields_no_slash h (by simp))]
    obtain ⟨hd, hn, hf⟩ := h
    change (popMkdir _).map some = _
    simp [popMkdir, pop_parent, LogRec.fields, pop_fid_num hd, pop_name_cons (legalname_iff.mp hn).1,
      pop_fid_num hf]
  | remove dir name =>
    rw [components_eq (fields_no_slash h (by simp))]
    obtain ⟨hd, hn⟩ := h
    change (popRemove _).map some = _
    simp [popRemove, pop_parent, LogRec.fields, pop_fid_num hd, pop_name_cons (legalname_iff.mp hn).1]
  | rmdir dir name =>
    rw [components_eq (fields_no_slash h (by simp))]
    obtain ⟨hd, hn⟩ := h
    change (popRmdir _).map some = _
    simp [popRmdir, pop_parent, LogRec.fields, pop_fid_num hd, pop_name_cons (legalname_iff.mp hn).1]
  | rename dir oldname newname =>
    obtain ⟨hd, hn⟩ := h
    have hc : (LogRec.rename dir oldname newname).fields.flatMap (fun f => f.splitOn '/') =
        "rename".toList :: "dir".toList :: num dir :: "old".toList :: oldname :: "new".toList ::
          newname.splitOn '/' := by
      simp only [LogRec.fields, List.flatMap_cons, splitOn_num, splitOn_name hn, List.flatMap_nil,
        List.append_nil]
      rfl
    rw [hc]
    change (popRename _).map some = _
    simp [popRename, pop_parent, pop_fid_num hd, pop_name_cons (legalname_iff.mp hn).1, pop_path_splitOn]
  | allocate fid offset cid v =>
    rw [components_eq (fields_no_slash h (by simp))]
    obtain ⟨hf, ho, hc, hv⟩ := h
    change (popAllocate _).map some = _
    simp [popAllocate, LogRec.fields, pop_fid_num hf, pop_fid_num ho, pop_fid_num hc, pop_fid_num hv]
  | truncate fid offset =>
    rw [components_eq (fields_no_slash h (by simp))]
    obtain ⟨hf, ho⟩ := h
    change (popTruncate _).map some = _
    simp [popTruncate, LogRec.fields, pop_fid_num hf, pop_fid_num ho]
  | chunkVersionInc n =>
    rw [components_eq (fields_no_slash h (by simp))]
    change some (some (LogRec.chunkVersionInc (toNumber (num n)))) = _
    rw [toNumber_num]

/-- The line of a readable record is replayed as the record. -/
theorem replayLine_line {r : LogRec} (h : r.Readable) : replayLine env fs r.line = redo env fs r := by
  have := replayLine_readAs env fs r.line
  rwa [readLine_line h] at this

/-! ## A file -/

/-- The names of the record. -/
def LogRec.names : LogRec → List Str
  | .create _ name _ _ | .mkdir _ name _ | .remove _ name | .rmdir _ name => [name]
  | .rename _ oldname newname => [oldname, newname]
  | _ => []

/-- A control character that is in no name is not in the line. -/
theorem line_not_mem {r : LogRec} {c : Char} (hc : c = '\n' ∨ c = '\x00')
    (h : ∀ name ∈ r.names, c ∉ name) : c ∉ r.line := by
  have hs : c ≠ '/' := by rcases hc with rfl | rfl <;> decide
  have hn : ∀ n, c ∉ num n := by
    intro n
    rcases hc with rfl | rfl
    · exact num_not_mem n (by decide) (by decide)
    · exact num_not_mem n (by decide) (by decide)
  have ht : ∀ f ∈ ["create".toList, "dir".toList, "name".toList, "id".toList, "numReplicas".toList,
      "mkdir".toList, "remove".toList, "rmdir".toList, "rename".toList, "old".toList, "new".toList,
      "allocate".toList, "file".toList, "offset".toList, "chunkId".toList, "chunkVersion".toList,
      "truncate".toList, "chunkVersionInc".toList], c ∉ f := by
    rcases hc with rfl | rfl <;> decide
  intro hm
  rcases mem_joinSep hm with rfl | ⟨f, hf, hcf⟩
  · exact hs rfl
  · revert hcf
    cases r <;> simp only [LogRec.fields, LogRec.names, List.mem_cons, List.not_mem_nil, or_false,
      forall_eq_or_imp, forall_eq, false_implies, implies_true] at hf h ht <;> grind

/-- A record that comes back from a file: readable, and on a line that fits. -/
structure LogRec.OnDisk (r : LogRec) : Prop where
  readable : r.Readable
  fits : r.line.length < MAXLINE
  text : ∀ name ∈ r.names, '\n' ∉ name ∧ '\x00' ∉ name

/-- The file that the records are written to. -/
def logText (rs : List LogRec) : Str := rs.flatMap fun r => r.line ++ ['\n']

/-- **A file of whole lines is replayed record by record.** -/
theorem playlog_records : ∀ {rs : List LogRec} {fs : Fs}, (∀ r ∈ rs, r.OnDisk) →
    playlog env fs (logText rs) = redoAll env fs rs
  | [], fs, _ => by
    simp [playlog, logText, redoAll, feed, replayLine, parseEntry, cstring, MAXLINE]
  | r :: rs, fs, h => by
    obtain ⟨hr, hfit, htext⟩ := h r List.mem_cons_self
    have hnl : '\n' ∉ r.line := line_not_mem (Or.inl rfl) fun name hn => (htext name hn).1
    have hz : '\x00' ∉ r.line := line_not_mem (Or.inr rfl) fun name hn => (htext name hn).2
    have hs : logText (r :: rs) = r.line ++ '\n' :: logText rs := by simp [logText]
    have ih : ∀ fs, feed (replayLine env) fs ((logText rs).splitOn '\n') = redoAll env fs rs :=
      fun fs => playlog_records fun r hr => h r (List.mem_cons_of_mem _ hr)
    rw [playlog, hs, List.splitOn_append_cons_self_of_not_mem hnl, feed, if_pos hfit,
      cstring_of_not_mem hz, replayLine_line hr, redoAll]
    rcases redo env fs r with - | ⟨- | -, fs'⟩
    · rfl
    · rfl
    · exact ih fs'

end Kfs
