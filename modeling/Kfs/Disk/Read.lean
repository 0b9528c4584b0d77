import Kfs.Disk.Replay

/-!
# What a log is read as

The handlers of the log pop their fields before they touch the tree, so that the records that a file is read as
do not depend on the state.

* `readLine`, `readRecords`: the record of a line, and those of a file;
* `redoAll`: redo the records one after the other;
* **`playlog_iff`**: a file is accepted when it is read as records that are all accepted.
-/

namespace Kfs

variable {env : Env} {fs fs' : Fs}

/-- What the handler of a record type takes the components as: nothing to do, or a record. -/
def readTable (type : Str) : Option (List Str → Option (Option LogRec)) :=
  if type = "version".toList then
    some fun c => if (pop_fid "version".toList c).any fun p => decide (p.1 = 1) then some none else none
  else if type = "create".toList then some fun c => (popCreate c).map some
  else if type = "mkdir".toList then some fun c => (popMkdir c).map some
  else if type = "remove".toList then some fun c => (popRemove c).map some
  else if type = "rmdir".toList then some fun c => (popRmdir c).map some
  else if type = "rename".toList then some fun c => (popRename c).map some
  else if type = "allocate".toList then some fun c => (popAllocate c).map some
  else if type = "truncate".toList then some fun c => (popTruncate c).map some
  else if type = "chunkVersionInc".toList then
    some fun c => c.tail.head?.map fun s => some (.chunkVersionInc (toNumber s))
  else if type = "time".toList then some fun c => if c.tail = [] then none else some none
  else none

/-- What a line is read as; `none` when it cannot be accepted. -/
def readLine (line : Str) : Option (Option LogRec) :=
  if line = [] then some none else (readTable ((line.splitOn '/').headD [])).bind fun g => g (line.splitOn '/')

/-- The records of the lines. -/
def readLines : List Str → Option (List LogRec)
  | [] => some []
  | line :: lines =>
    if line.length < MAXLINE then
      match readLine (cstring line), readLines lines with
      | some o, some rs => some (o.toList ++ rs)
      | _, _ => none
    else none

/-- The records that a log file is read as. -/
def readRecords (file : Str) : Option (List LogRec) := readLines (file.splitOn '\n')

/-- Redo the records one after the other, as long as they are accepted. -/
def redoAll (env : Env) (fs : Fs) : List LogRec → Option (Bool × Fs)
  | [] => some (true, fs)
  | r :: rs =>
    match redo env fs r with
    | some (true, fs) => redoAll env fs rs
    | x => x

/-! ## Lines -/

/-- The result of a handler, given what the components are read as. -/
def ReadAs (env : Env) (fs : Fs) (res : Option (Bool × Fs)) : Option (Option LogRec) → Prop
  | none => ∀ fs', res ≠ some (true, fs')
  | some none => res = some (true, fs)
  | some (some r) => res = redo env fs r

theorem redoPopped_readAs (r : Option LogRec) : ReadAs env fs (redoPopped env fs r) (r.map some) := by
  rcases r with - | r
  · simp [ReadAs, redoPopped]
  · rfl

/-- A handler, and what it takes the components as. -/
def HandlerAs (env : Env) :
    Option (Fs → List Str → Option (Bool × Fs)) → Option (List Str → Option (Option LogRec)) → Prop
  | none, none => True
  | some h, some g => ∀ fs c, ReadAs env fs (h fs c) (g c)
  | _, _ => False

theorem HandlerAs.ite {p : Prop} [Decidable p] {h h' : Option (Fs → List Str → Option (Bool × Fs))}
    {g g' : Option (List Str → Option (Option LogRec))} (h₁ : HandlerAs env h g) (h₂ : HandlerAs env h' g') :
    HandlerAs env (if p then h else h') (if p then g else g') := by
  split_ifs
  · exact h₁
  · exact h₂

/-- The two tables agree. -/
theorem table_readAs (env : Env) (type : Str) : HandlerAs env (replayTable env type) (readTable type) := by
  have hpop : ∀ pop : List Str → Option LogRec,
      HandlerAs env (some fun fs c => redoPopped env fs (pop c)) (some fun c => (pop c).map some) :=
    fun pop fs c => redoPopped_readAs _
  refine .ite (fun fs c => ?_) <| .ite (hpop popCreate) <| .ite (hpop popMkdir) <| .ite (hpop popRemove) <|
    .ite (hpop popRmdir) <| .ite (hpop popRename) <| .ite (hpop popAllocate) <| .ite (hpop popTruncate) <|
    .ite (fun fs c => ?_) <| .ite (fun fs c => ?_) trivial
  · unfold replay_version
    dsimp only
    split_ifs with h
    · rw [h]
      rfl
    · rw [Bool.not_eq_true] at h
      rw [h]
      simp [ReadAs]
  · unfold restore_chunkVersionInc
    dsimp only
    rcases c.tail with - | ⟨s, c⟩
    · simp [ReadAs]
    · rfl
  · unfold restore_time
    dsimp only
    split_ifs with h
    · simp [ReadAs]
    · rfl

theorem replayLine_readAs (env : Env) (fs : Fs) (line : Str) :
    ReadAs env fs (replayLine env fs line) (readLine line) := by
  unfold replayLine parseEntry readLine
  split_ifs
  · rfl
  · have ht := table_readAs env ((line.splitOn '/').headD [])
    generalize replayTable env ((line.splitOn '/').headD []) = h at ht ⊢
    generalize readTable ((line.splitOn '/').headD []) = g at ht ⊢
    rcases h with - | h
    · rcases g with - | g
      · simp [ReadAs]
      · exact ht.elim
    · rcases g with - | g
      · exact ht.elim
      · exact ht fs _

/-! ## Files -/

theorem feed_iff : ∀ {lines : List Str} {fs : Fs}, feed (replayLine env) fs lines = some (true, fs') ↔
    ∃ rs, readLines lines = some rs ∧ redoAll env fs rs = some (true, fs')
  | [], fs => by simp [feed, readLines, redoAll]
  | line :: lines, fs => by
    have hline := replayLine_readAs env fs (cstring line)
    rw [feed, readLines]
    split_ifs with hlen
    · rcases hr : readLine (cstring line) with - | - | r
      · rw [hr] at hline
        rcases hp : replayLine env fs (cstring line) with - | ⟨- | -, fs₁⟩
        · simp
        · simp
        · exact absurd hp (hline fs₁)
      · rw [hr] at hline
        change replayLine env fs (cstring line) = some (true, fs) at hline
        simp only [hline, feed_iff]
        rcases readLines lines with - | rs <;> simp
      · rw [hr] at hline
        change replayLine env fs (cstring line) = redo env fs r at hline
        rw [hline]
        rcases hrd : redo env fs r with - | ⟨- | -, fs₁⟩
        · rcases readLines lines with - | rs <;> simp [redoAll, hrd]
        · rcases readLines lines with - | rs <;> simp [redoAll, hrd]
        · simp only [feed_iff]
          rcases readLines lines with - | rs <;> simp [redoAll, hrd]
    · rcases replayLine env fs (cstring (line.take (MAXLINE - 1))) with - | ⟨- | -, fs₁⟩ <;> simp

/-- **A file is accepted when it is read as records that are all accepted.** -/
theorem playlog_iff {file : Str} : playlog env fs file = some (true, fs') ↔
    ∃ rs, readRecords file = some rs ∧ redoAll env fs rs = some (true, fs') := feed_iff

theorem readLines_append {u v : List Str} : readLines (u ++ v) =
    (readLines u).bind fun rs => (readLines v).map fun rs' => rs ++ rs' := by
  induction u with
  | nil => simp [readLines]
  | cons line u ih =>
    rw [List.cons_append, readLines, readLines, ih]
    split_ifs
    · rcases readLine (cstring line) with - | o
      · simp
      · rcases readLines u with - | rs
        · simp
        · rcases readLines v with - | rs' <;> simp
    · rfl

/-- One log after the other. -/
theorem redoAll_append {rs rs' : List LogRec} : ∀ {fs fs₁ : Fs}, redoAll env fs rs = some (true, fs₁) →
    redoAll env fs (rs ++ rs') = redoAll env fs₁ rs' := by
  induction rs with
  | nil =>
    intro fs fs₁ h
    obtain rfl : fs = fs₁ := by simpa [redoAll] using h
    rfl
  | cons r rs ih =>
    intro fs fs₁ h
    rw [redoAll] at h
    rw [List.cons_append, redoAll]
    rcases hr : redo env fs r with - | ⟨- | -, fs₂⟩
    · simp [hr] at h
    · simp [hr] at h
    · simp only [hr] at h
      exact ih h

end Kfs
