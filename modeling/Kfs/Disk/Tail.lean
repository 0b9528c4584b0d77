import Kfs.Disk.Codec
import Kfs.Server.Namespace

/-!
# The end of a log that a crash has cut

`startLog` opens a log that exists in append mode: what comes next is written right after the last byte that is
there. The reader takes a last line without its newline.

* `LogLine`: the lines of a log, with those of `startLog` and `finishLog`; `LogLine.Sound`: read as written;
* `prefix_linesText`: what a cut leaves;
* `TailSafe`: a second recovery has what was acknowledged before and after the crash;
* **`tailSafe_iff`**: it has when the cut is at the end of a line, with one record at most behind it.
-/

namespace Kfs

open Lib

variable {env : Env} {fs fs' : Fs}

/-! ## Lines -/

/-- A line of a log: its version, the time at which it was opened or closed, or a record. -/
inductive LogLine
  | version
  | time (stamp : Str)
  | record (r : LogRec)
  deriving DecidableEq

def LogLine.line : LogLine → Str
  | .version => "version/1".toList
  | .time stamp => "time".toList ++ '/' :: stamp
  | .record r => r.line

def LogLine.record? : LogLine → Option LogRec
  | .record r => some r
  | _ => none

/-- The text of the lines. -/
def linesText (es : List LogLine) : Str := es.flatMap fun e => e.line ++ ['\n']

/-- The records of the lines. -/
def records (es : List LogLine) : List LogRec := es.filterMap LogLine.record?

/-- A line that fits and is read as what was written. -/
structure LogLine.Sound (e : LogLine) : Prop where
  fits : e.line.length < MAXLINE
  newline : '\n' ∉ e.line
  nul : '\x00' ∉ e.line
  read : readLine e.line = some e.record?

instance (e : LogLine) : Decidable e.Sound :=
  decidable_of_iff (e.line.length < MAXLINE ∧ '\n' ∉ e.line ∧ '\x00' ∉ e.line ∧ readLine e.line = some e.record?)
    ⟨fun ⟨h₁, h₂, h₃, h₄⟩ => ⟨h₁, h₂, h₃, h₄⟩, fun h => ⟨h.fits, h.newline, h.nul, h.read⟩⟩

theorem LogRec.OnDisk.sound {r : LogRec} (h : r.OnDisk) : (LogLine.record r).Sound where
  fits := h.fits
  newline := line_not_mem (Or.inl rfl) fun name hn => (h.text name hn).1
  nul := line_not_mem (Or.inr rfl) fun name hn => (h.text name hn).2
  read := readLine_line h.readable

theorem linesText_append (es es' : List LogLine) : linesText (es ++ es') = linesText es ++ linesText es' :=
  List.flatMap_append

theorem linesText_records (rs : List LogRec) : linesText (rs.map .record) = logText rs := by
  rw [linesText, logText, List.flatMap_map]
  rfl

theorem records_append (es es' : List LogLine) : records (es ++ es') = records es ++ records es' :=
  List.filterMap_append

theorem splitOn_linesText : ∀ {es : List LogLine} {q : Str}, (∀ e ∈ es, e.Sound) →
    (linesText es ++ q).splitOn '\n' = es.map LogLine.line ++ q.splitOn '\n'
  | [], q, _ => by simp [linesText]
  | e :: es, q, h => by
    have hs : linesText (e :: es) ++ q = e.line ++ '\n' :: (linesText es ++ q) := by simp [linesText]
    rw [hs, List.splitOn_append_cons_self_of_not_mem (h e List.mem_cons_self).newline,
      splitOn_linesText fun e' he' => h e' (List.mem_cons_of_mem _ he')]
    rfl

theorem readLines_sound : ∀ {es : List LogLine}, (∀ e ∈ es, e.Sound) →
    readLines (es.map LogLine.line) = some (records es)
  | [], _ => rfl
  | e :: es, h => by
    have he := h e List.mem_cons_self
    have hcons : records (e :: es) = e.record?.toList ++ records es := by cases e <;> rfl
    rw [List.map_cons, readLines, if_pos he.fits, cstring_of_not_mem he.nul, he.read,
      readLines_sound fun e' he' => h e' (List.mem_cons_of_mem _ he'), hcons]

/-- Whole lines are read as what was written, and then comes the rest. -/
theorem readRecords_linesText {es : List LogLine} (h : ∀ e ∈ es, e.Sound) (q : Str) :
    readRecords (linesText es ++ q) = (readRecords q).map fun rs => records es ++ rs := by
  rw [readRecords, splitOn_linesText h, readLines_append, readLines_sound h]
  rfl

theorem readRecords_nil : readRecords [] = some [] := by decide

theorem readRecords_whole {es : List LogLine} (h : ∀ e ∈ es, e.Sound) :
    readRecords (linesText es) = some (records es) := by
  have := readRecords_linesText h []
  simpa [readRecords_nil] using this

/-! ## Cuts -/

/-- What a cut leaves: whole lines, and the start of the next one. -/
theorem prefix_linesText : ∀ {us : List LogLine} {p : Str}, p <+: linesText us →
    ∃ vs q, p = linesText vs ++ q ∧ vs <+: us ∧ (q = [] ∨ ∃ u ∈ us, q <+: u.line)
  | [], p, h => ⟨[], p, rfl, List.nil_prefix, Or.inl (List.prefix_nil.mp h)⟩
  | u :: us, p, h => by
    have hs : linesText (u :: us) = (u.line ++ ['\n']) ++ linesText us := by simp [linesText]
    obtain ⟨t, ht⟩ := h
    rw [hs] at ht
    rcases List.append_eq_append_iff.mp ht with ⟨a, ha, -⟩ | ⟨c, hc, hc'⟩
    · have hp : p <+: u.line ++ ['\n'] := ⟨a, ha.symm⟩
      rcases List.prefix_concat_iff.mp hp with rfl | hp
      · exact ⟨[u], [], by simp [linesText], ⟨us, rfl⟩, Or.inl rfl⟩
      · exact ⟨[], p, rfl, List.nil_prefix, Or.inr ⟨u, List.mem_cons_self, hp⟩⟩
    · obtain ⟨vs, q, rfl, hvs, hq⟩ := prefix_linesText ⟨t, hc'.symm⟩
      refine ⟨u :: vs, q, by simp [hc, linesText], (List.prefix_cons_inj u).mpr hvs, ?_⟩
      exact hq.imp_right fun ⟨v, hv, hq⟩ => ⟨v, List.mem_cons_of_mem _ hv, hq⟩

/-- The type of a line. -/
def LogLine.type : LogLine → Str
  | .version => "version".toList
  | .time _ => "time".toList
  | .record r => r.fields.headD []

theorem LogLine.line_eq (e : LogLine) : ∃ rest, e.line = e.type ++ '/' :: rest := by
  cases e with
  | version => exact ⟨['1'], by decide⟩
  | time stamp => exact ⟨stamp, rfl⟩
  | record r => cases r <;> exact ⟨_, rfl⟩

theorem LogLine.slash_not_mem_type (e : LogLine) : '/' ∉ e.type := by
  cases e with
  | version => decide
  | time stamp => exact (by decide : '/' ∉ "time".toList)
  | record r =>
    cases r with
    | create => exact (by decide : '/' ∉ "create".toList)
    | mkdir => exact (by decide : '/' ∉ "mkdir".toList)
    | remove => exact (by decide : '/' ∉ "remove".toList)
    | rmdir => exact (by decide : '/' ∉ "rmdir".toList)
    | rename => exact (by decide : '/' ∉ "rename".toList)
    | allocate => exact (by decide : '/' ∉ "allocate".toList)
    | truncate => exact (by decide : '/' ∉ "truncate".toList)
    | chunkVersionInc => exact (by decide : '/' ∉ "chunkVersionInc".toList)

theorem LogLine.type_eq {e : LogLine} {a b : Str} (h : a ++ '/' :: b <+: e.line) (ha : '/' ∉ a) : a = e.type := by
  obtain ⟨t, ht⟩ := h
  obtain ⟨rest, he⟩ := e.line_eq
  have h₁ := congrArg (List.takeWhile (· ≠ '/')) (ht.trans he)
  have hstop : ∀ (a b : Str), '/' ∉ a → (a ++ '/' :: b).takeWhile (· ≠ '/') = a := by
    intro a b ha
    rw [List.takeWhile_append_of_pos]
    · simp
    · intro x hx
      simp only [ne_eq, decide_eq_true_eq]
      rintro rfl
      exact ha hx
  rwa [List.append_assoc, List.cons_append, hstop a _ ha, hstop e.type rest e.slash_not_mem_type] at h₁

/-- The line of an incarnation number has one slash. -/
theorem LogLine.of_type_inc {e : LogLine} (h : e.type = "chunkVersionInc".toList) :
    ∃ n, e = .record (.chunkVersionInc n) := by
  cases e with
  | version => exact absurd h (by decide)
  | time stamp => exact absurd h (by change ¬ "time".toList = _; decide)
  | record r =>
    cases r with
    | chunkVersionInc n => exact ⟨n, rfl⟩
    | create => exact absurd h (by decide : ¬ "create".toList = "chunkVersionInc".toList)
    | mkdir => exact absurd h (by decide : ¬ "mkdir".toList = "chunkVersionInc".toList)
    | remove => exact absurd h (by decide : ¬ "remove".toList = "chunkVersionInc".toList)
    | rmdir => exact absurd h (by decide : ¬ "rmdir".toList = "chunkVersionInc".toList)
    | rename => exact absurd h (by decide : ¬ "rename".toList = "chunkVersionInc".toList)
    | allocate => exact absurd h (by decide : ¬ "allocate".toList = "chunkVersionInc".toList)
    | truncate => exact absurd h (by decide : ¬ "truncate".toList = "chunkVersionInc".toList)

/-! ## A line that was cut and written on -/

/-- No incarnation number comes from this handler. -/
def NoInc (g : Option (List Str → Option (Option LogRec))) : Prop :=
  ∀ f ∈ g, ∀ c n, f c ≠ some (some (.chunkVersionInc n))

theorem NoInc.ite {p : Prop} [Decidable p] {g g' : Option (List Str → Option (Option LogRec))}
    (h : p → NoInc g) (h' : NoInc g') : NoInc (if p then g else g') := by
  split_ifs with hp
  · exact h hp
  · exact h'

theorem noInc_map {pop : List Str → Option LogRec} (h : ∀ c n, pop c ≠ some (.chunkVersionInc n)) :
    NoInc (some fun c => (pop c).map some) := by
  rintro f ⟨⟩ c n
  simpa using h c n

theorem readTable_noInc {type : Str} (ht : type ≠ "chunkVersionInc".toList) : NoInc (readTable type) := by
  refine .ite (fun _ => ?_) <| .ite (fun _ => noInc_map fun c n => ?_) <|
    .ite (fun _ => noInc_map fun c n => ?_) <| .ite (fun _ => noInc_map fun c n => ?_) <|
    .ite (fun _ => noInc_map fun c n => ?_) <| .ite (fun _ => noInc_map fun c n => ?_) <|
    .ite (fun _ => noInc_map fun c n => ?_) <| .ite (fun _ => noInc_map fun c n => ?_) <|
    .ite (fun h => absurd h ht) <| .ite (fun _ => ?_) fun f hf => ?_
  · rintro f ⟨⟩ c n
    dsimp only
    split_ifs <;> simp
  · simp [popCreate, Option.bind_eq_some_iff]
  · simp [popMkdir, Option.bind_eq_some_iff]
  · simp [popRemove, Option.bind_eq_some_iff]
  · simp [popRmdir, Option.bind_eq_some_iff]
  · simp [popRename, Option.bind_eq_some_iff]
  · simp [popAllocate, Option.bind_eq_some_iff]
  · simp [popTruncate, Option.bind_eq_some_iff]
  · rintro f ⟨⟩ c n
    dsimp only
    split_ifs <;> simp
  · simp at hf

theorem readLine_inc {line : Str} {n : ℤ} (h : readLine line = some (some (.chunkVersionInc n))) :
    ∃ s c, line.splitOn '/' = "chunkVersionInc".toList :: s :: c ∧ toNumber s = n := by
  unfold readLine at h
  split_ifs at h
  · simp at h
  obtain ⟨g, hg, hc⟩ := Option.bind_eq_some_iff.mp h
  by_cases ht : (line.splitOn '/').headD [] = "chunkVersionInc".toList
  · rw [ht] at hg
    obtain rfl : (fun c : List Str => c.tail.head?.map fun s => some (LogRec.chunkVersionInc (toNumber s))) = g :=
      Option.some.inj hg
    rcases hs : line.splitOn '/' with - | ⟨a, - | ⟨s, c⟩⟩
    · exact absurd hs (List.splitOn_ne_nil _ _)
    · simp [hs] at hc
    · rw [hs] at ht
      exact ⟨s, c, by rw [show a = _ from ht], by simpa [hs] using hc⟩
  · exact absurd hc (readTable_noInc ht g hg _ n)

theorem toNumber_append_inc (b : Str) : toNumber (b ++ "chunkVersionInc".toList) = -1 := by
  unfold toNumber
  rw [if_neg]
  exact strtoll_rest_ne (c := 'c') (by simp) (by decide) (by decide) (by decide) (by decide)

theorem line_inc (n : ℤ) : (LogRec.chunkVersionInc n).line = "chunkVersionInc".toList ++ '/' :: num n := by
  simp [LogRec.line, LogRec.fields, joinSep]

/-- What is written after the start of a line is not read as it was written. -/
theorem readLine_fused {u : LogLine} {q : Str} {n : ℤ} (hq : q <+: u.line) (hne : q ≠ []) (hn : 0 ≤ n) :
    readLine (q ++ (LogRec.chunkVersionInc n).line) ≠ some (some (.chunkVersionInc n)) := by
  intro h
  obtain ⟨s, c, hs, hnum⟩ := readLine_inc h
  have hslash : '/' ∉ "chunkVersionInc".toList := by decide
  rw [line_inc] at hs
  by_cases hm : '/' ∈ q
  · obtain ⟨a, b, rfl, ha⟩ := List.eq_append_cons_of_mem hm
    rw [List.append_assoc, List.cons_append, List.splitOn_append_cons_self_of_not_mem ha] at hs
    obtain ⟨rfl, hs⟩ := List.cons.inj hs
    by_cases hb : '/' ∈ b
    · -- the line would have two slashes
      obtain ⟨m, rfl⟩ := LogLine.of_type_inc (LogLine.type_eq hq ha).symm
      obtain ⟨t, ht⟩ := hq
      have hbm : '/' :: b ++ t = '/' :: num m := by
        have hl : "chunkVersionInc".toList ++ ('/' :: b ++ t) = "chunkVersionInc".toList ++ '/' :: num m := by
          rw [← List.append_assoc]
          exact ht.trans (line_inc m)
        exact List.append_cancel_left hl
      have hmem : '/' ∈ num m := (List.cons.inj hbm).2 ▸ List.mem_append_left t hb
      exact slash_not_mem_num m hmem
    · have hbs : '/' ∉ b ++ "chunkVersionInc".toList := by
        rw [List.mem_append]
        exact not_or.mpr ⟨hb, hslash⟩
      rw [← List.append_assoc, List.splitOn_append_cons_self_of_not_mem hbs] at hs
      rw [← (List.cons.inj (List.cons.inj hs).2).1, toNumber_append_inc] at hnum
      omega
  · have hqs : '/' ∉ q ++ "chunkVersionInc".toList := by
      rw [List.mem_append]
      exact not_or.mpr ⟨hm, hslash⟩
    rw [← List.append_assoc, List.splitOn_append_cons_self_of_not_mem hqs] at hs
    exact hne (List.append_left_eq_self.mp (List.cons.inj hs).1)

/-- The start of a line and a line written after it are read as one line. -/
theorem readRecords_fused {u : LogLine} {r : LogRec} {q : Str} {rs : List LogRec} (hu : u.Sound) (hq : q <+: u.line)
    (hr : (LogLine.record r).Sound) (h : readRecords (q ++ logText [r]) = some rs) :
    ∃ o, readLine (q ++ r.line) = some o ∧ rs = o.toList := by
  have hmem : ∀ c : Char, c ∉ u.line → c ∉ r.line → c ∉ q ++ r.line := by
    intro c hcu hcr hc
    rcases List.mem_append.mp hc with hc | hc
    · exact hcu (hq.subset hc)
    · exact hcr hc
  have hs : q ++ logText [r] = (q ++ r.line) ++ '\n' :: [] := by simp [logText]
  rw [readRecords, hs, List.splitOn_append_cons_self_of_not_mem (hmem _ hu.newline hr.newline), readLines] at h
  split_ifs at h
  rw [cstring_of_not_mem (hmem _ hu.nul hr.nul)] at h
  rcases ho : readLine (q ++ r.line) with - | o
  · simp [ho] at h
  · have hnil : readLines ([].splitOn '\n') = some [] := readRecords_nil
    rw [ho, hnil] at h
    exact ⟨o, rfl, by simpa using h.symm⟩

/-! ## The second recovery -/

/-- After a recovery that has read `rs` from `file`, the log is written on. A later recovery succeeds, and has
exactly the records of `acked`, one of those of `unacked` at most, and all of the new ones. -/
def TailSafe (fs : Fs) (acked unacked : List LogLine) (file : Str) : Prop :=
  ∀ env vs, (∀ r ∈ vs, r.OnDisk) →
    (∃ rs fs', readRecords file = some rs ∧ redoAll env fs (rs ++ vs) = some (true, fs')) →
    (∃ fs', playlog env fs (file ++ logText vs) = some (true, fs')) ∧
      ∃ w, w <+: records unacked ∧ w.length ≤ 1 ∧
        readRecords (file ++ logText vs) = some (records acked ++ w ++ vs)

theorem tailSafe_of_whole {A us vs : List LogLine} {p : Str} (hA : ∀ e ∈ A, e.Sound) (hus : ∀ e ∈ us, e.Sound)
    (hvs : vs <+: us) (hp : p = linesText vs) (h1 : (records vs).length ≤ 1) :
    TailSafe fs A us (linesText A ++ p) := by
  rintro env ws hws ⟨rs, fs', hrs, hredo⟩
  subst hp
  have hAv : ∀ e ∈ A ++ vs, e.Sound := by
    intro e he
    rcases List.mem_append.mp he with he | he
    · exact hA e he
    · exact hus e (hvs.subset he)
  have hread : ∀ ws : List LogRec, (∀ r ∈ ws, r.OnDisk) →
      readRecords (linesText A ++ linesText vs ++ logText ws) = some (records A ++ records vs ++ ws) := by
    intro ws hws
    have hw : ∀ e ∈ ws.map LogLine.record, e.Sound := by
      intro e he
      obtain ⟨r, hr, rfl⟩ := List.mem_map.mp he
      exact (hws r hr).sound
    have hrec : records (ws.map .record) = ws := by
      simp [records, List.filterMap_map, Function.comp_def, LogLine.record?]
    rw [← linesText_append, ← linesText_records, readRecords_linesText hAv, readRecords_whole hw, hrec,
      records_append]
    rfl
  have h₀ := hread [] (fun r hr => absurd hr List.not_mem_nil)
  obtain rfl : rs = records A ++ records vs := by
    simpa [logText, hrs] using h₀
  exact ⟨⟨fs', playlog_iff.mpr ⟨_, hread ws hws, hredo⟩⟩, records vs, hvs.filterMap _, h1, hread ws hws⟩

theorem eq_of_length_le_one {α : Type} {l : List α} (h : l.length ≤ 1) {a b : α} (ha : a ∈ l) (hb : b ∈ l) :
    a = b := by
  rcases l with - | ⟨x, - | ⟨y, l⟩⟩
  · simp at ha
  · rw [List.mem_singleton.mp ha, List.mem_singleton.mp hb]
  · simp at h

theorem onDisk_inc {n : ℤ} (h : (LogRec.chunkVersionInc n).line.length < MAXLINE) :
    (LogRec.chunkVersionInc n).OnDisk :=
  ⟨trivial, h, fun _ hn => absurd hn List.not_mem_nil⟩

/-- **What is acknowledged after a crash is kept when the crash has cut at the end of a line, behind one record
at most.** -/
theorem tailSafe_iff {A us : List LogLine} {p : Str} (hA : ∀ e ∈ A, e.Sound) (hus : ∀ e ∈ us, e.Sound)
    (hp : p <+: linesText us) (h₁ : playlog env fs (linesText A ++ p) = some (true, fs')) :
    TailSafe fs A us (linesText A ++ p) ↔ ∃ vs, vs <+: us ∧ p = linesText vs ∧ (records vs).length ≤ 1 := by
  constructor
  swap
  · rintro ⟨vs, hvs, hpv, h1⟩
    exact tailSafe_of_whole hA hus hvs hpv h1
  intro hsafe
  obtain ⟨rs, hrs, hredo⟩ := playlog_iff.mp h₁
  obtain ⟨vs, q, rfl, hvs, hq⟩ := prefix_linesText hp
  have hAv : ∀ e ∈ A ++ vs, e.Sound := by
    intro e he
    rcases List.mem_append.mp he with he | he
    · exact hA e he
    · exact hus e (hvs.subset he)
  have hcut : ∀ ws : List LogRec, readRecords (linesText A ++ (linesText vs ++ q) ++ logText ws) =
      (readRecords (q ++ logText ws)).map fun rs => records A ++ records vs ++ rs := by
    intro ws
    rw [← records_append, ← readRecords_linesText hAv, linesText_append]
    simp only [List.append_assoc]
  have hone : (records vs).length ≤ 1 := by
    obtain ⟨-, w, -, hw, hread⟩ := hsafe env [] (fun r hr => absurd hr List.not_mem_nil)
      ⟨rs, fs', hrs, by simpa using hredo⟩
    rw [hcut] at hread
    obtain ⟨rs', -, he⟩ := Option.map_eq_some_iff.mp hread
    have hlen := congrArg List.length he
    simp only [List.length_append, List.length_nil] at hlen
    omega
  by_cases hqn : q = []
  · exact ⟨vs, hvs, by simp [hqn], hone⟩
  · exfalso
    obtain ⟨u, hu, hqu⟩ := hq.resolve_left hqn
    -- one of two records is not among those that are left
    obtain ⟨n, hn, hdisk, hnew⟩ : ∃ n : ℤ, 1 ≤ n ∧ (LogRec.chunkVersionInc n).OnDisk ∧
        LogRec.chunkVersionInc n ∉ records vs := by
      by_cases hmem : LogRec.chunkVersionInc 1 ∈ records vs
      · refine ⟨2, by omega, onDisk_inc (by decide), fun hmem' => ?_⟩
        have heq := eq_of_length_le_one hone hmem hmem'
        exact absurd (LogRec.chunkVersionInc.inj heq) (by decide)
      · exact ⟨1, le_rfl, onDisk_inc (by decide), hmem⟩
    have hred : redoAll env fs (rs ++ [.chunkVersionInc n]) = some (true, { fs' with chunkVersionInc := n }) := by
      rw [redoAll_append hredo]
      simp [redoAll, redo, hn]
    obtain ⟨-, w, -, -, hread⟩ := hsafe env [.chunkVersionInc n] (by simpa using hdisk) ⟨rs, _, hrs, hred⟩
    rw [hcut] at hread
    obtain ⟨rs', hrs', he⟩ := Option.map_eq_some_iff.mp hread
    obtain ⟨o, ho, rfl⟩ := readRecords_fused (hus u hu) hqu hdisk.sound hrs'
    rw [List.append_assoc, List.append_assoc] at he
    have he := List.append_cancel_left he
    rcases o with - | r
    · refine hnew ?_
      rw [Option.toList_none, List.append_nil] at he
      rw [he]
      exact List.mem_append_right w (List.mem_singleton_self _)
    · obtain ⟨-, rfl⟩ := List.append_singleton_inj.mp he
      exact readLine_fused hqu hqn (by omega) ho

/-- A log with one acknowledged record, and a record that was not acknowledged. -/
def ackedLines : List LogLine :=
  [.version, .time "Mon Jan  1 00:00:00 2007".toList, .record (.create ROOTFID ['f'] 3 1)]

def unackedLines : List LogLine := [.record (.create ROOTFID ['g'] 4 1)]

theorem wholeLine_tailSafe : TailSafe rootSys.fs ackedLines unackedLines
    (linesText ackedLines ++ linesText unackedLines) := by
  have hp : ((playlog idleEnv rootSys.fs (linesText ackedLines ++ linesText unackedLines)).map Prod.fst) =
      some true := by decide +kernel
  obtain ⟨⟨b, fs'⟩, hp, rfl⟩ := Option.map_eq_some_iff.mp hp
  exact (tailSafe_iff (by decide +kernel) (by decide +kernel) (List.prefix_refl _) hp).mpr
    ⟨unackedLines, List.prefix_refl _, rfl, by decide⟩

/-- The crash has cut the newline of the last record. The log is accepted, and the next record makes it one that
is rejected. -/
theorem cutNewline_not_tailSafe :
    linesText unackedLines = (linesText unackedLines).dropLast ++ ['\n'] ∧
    (∃ fs', playlog idleEnv rootSys.fs (linesText ackedLines ++ (linesText unackedLines).dropLast) =
      some (true, fs')) ∧
    ¬ TailSafe rootSys.fs ackedLines unackedLines (linesText ackedLines ++ (linesText unackedLines).dropLast) := by
  have hp : ((playlog idleEnv rootSys.fs (linesText ackedLines ++ (linesText unackedLines).dropLast)).map
      Prod.fst) = some true := by decide +kernel
  obtain ⟨⟨b, fs'⟩, hp, rfl⟩ := Option.map_eq_some_iff.mp hp
  refine ⟨by decide +kernel, ⟨fs', hp⟩, fun hsafe => ?_⟩
  have hdisk : (LogRec.mkdir ROOTFID ['d'] 5).OnDisk := ⟨by decide, by decide +kernel, by decide⟩
  have hredo : ((redoAll idleEnv rootSys.fs ([.create ROOTFID ['f'] 3 1, .create ROOTFID ['g'] 4 1] ++
      [.mkdir ROOTFID ['d'] 5])).map Prod.fst) = some true := by decide +kernel
  obtain ⟨⟨b, fs''⟩, hredo, rfl⟩ := Option.map_eq_some_iff.mp hredo
  obtain ⟨⟨fs₂, hfs₂⟩, -⟩ := hsafe idleEnv [.mkdir ROOTFID ['d'] 5] (by simpa using hdisk)
    ⟨_, fs'', by decide +kernel, hredo⟩
  have hrej : ((playlog idleEnv rootSys.fs (linesText ackedLines ++ (linesText unackedLines).dropLast ++
      logText [.mkdir ROOTFID ['d'] 5])).map Prod.fst) = some false := by decide +kernel
  rw [hfs₂] at hrej
  exact Bool.noConfusion (Option.some.inj hrej)

end Kfs
