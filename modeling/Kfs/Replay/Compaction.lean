import Kfs.Disk.Checkpoint
import Kfs.Disk.LogFiles
import Kfs.Replay.Alike
import Kfs.Replay.Durable
import Kfs.Replay.Seeds

/-!
# Compactions between the steps of the server

While the metaserver runs, the log compactor restores the latest checkpoint, plays the log files that are closed since,
and writes a checkpoint of the tree that it gets, with its items in another order.

* `Checkpoint`, `restoreFrom`, `kfsStartup`, `compactor`: the programs, on the texts of their files;
* `reload`: a checkpoint comes back alike;
* `Installation.step`: the threads of the server, and whole runs of the compactor between their steps;
* `Backed`: what the latest checkpoint holds;
* **`compaction_recovers`**: after any number of compactions recovery leads to a state in which the answered requests
  are done.
-/

namespace Kfs

open Lib

/-! ## The programs -/

/-- What `do_CP` writes: `highest` is `oplog.checkpointed()`, `logname` is `oplog.name()`. -/
structure Checkpoint where
  highest : ℤ
  fs : Fs
  stamp : Str
  logname : Str

def Checkpoint.text (c : Checkpoint) : Str := checkpointText c.highest c.fs c.stamp c.logname

/-- `Logger::logfile`. -/
def logfile (logdir : Str) (n : ℕ) : Str := logdir ++ "/log.".toList ++ num n

/-- The number that `openlog` finds behind the last dot, or 0 when the file is not there. `none` is a failed
assertion. -/
def openlog (logdir : Str) (files : List LogFile) (p : Str) : Option ℤ :=
  if files.any fun f => decide (logfile logdir f.number = p) then
    if '.' ∈ p then
      let number := (strtoll (p.reverse.takeWhile (· ≠ '.')).reverse).1
      if 0 ≤ number then some number else none
    else none
  else some 0

/-- Where the replay starts: the tree, `replayer.logno()` and `oplog.checkpointed()`. -/
structure Restart where
  fs : Fs
  number : ℤ
  seqno : ℤ

/-- `Restorer::rebuild`; the callers panic when it fails. -/
def restoreFrom (minReplicas : ℤ) (logdir : Str) (files : List LogFile) (cp : Str) : Option Restart :=
  match rebuild minReplicas emptyRestored cp with
  | some (true, r) => (openlog logdir files r.log).map fun number => ⟨r.fs, number, r.seqno⟩
  | _ => none

def numbers (files : List LogFile) : Finset ℕ := (files.map LogFile.number).toFinset

/-- The files with the numbers, in their order. -/
def pick (files : List LogFile) (ns : List ℕ) : List LogFile :=
  ns.filterMap fun n => files.find? fun f => decide (f.number = n)

/-- The lines that `playlog` counts. -/
def lineCount (files : List LogFile) : ℕ := (files.map fun f => ((linesText f.lines ++ f.torn).splitOn '\n').length).sum

/-- `kfs_startup` with a checkpoint: `setup_initial_tree` and `playAllLogs`; `none` is a panic. -/
def kfsStartup (env : Env) (minReplicas : ℤ) (logdir : Str) (files : List LogFile) (cp : Str) : Option Fs :=
  (restoreFrom minReplicas logdir files cp).bind fun r =>
    match playFiles env r.fs (pick files (playAllLogs (numbers files) r.number).replayed) with
    | some (true, fs) => some fs
    | _ => none

/-- `restoreCheckpoint`, `replayLogs` and `do_CP` of the log compactor, which may write nothing. `last` is the number of
the file behind `LASTLOG`. -/
def compactor (env : Env) (stamp logdir : Str) (files : List LogFile) (last : Option ℕ) (cp : Str) :
    Option Checkpoint :=
  (restoreFrom 1 logdir files cp).bind fun r =>
    (last.bind (scanTo (numbers files) r.number)).bind fun lastlog =>
      if (lastlog : ℤ) = r.number then none
      else
        let played := pick files (List.range' r.number.toNat (lastlog + 1 - r.number.toNat))
        match playFiles env r.fs played with
        | some (true, fs) => some ⟨r.seqno + lineCount played, fs, stamp, logfile logdir (lastlog + 1)⟩
        | _ => none

/-! ## A checkpoint comes back -/

variable {env env' : Env} {l l' : List Meta} {R R' R₁ T : Fs} {s s₀ : Sys} {logdir : Str} {minReplicas : ℤ}

/-- The items, kind by kind. -/
theorem perm_kinds (l : List Meta) : List.Perm l ((dentries l).map .dentry ++ ((fattrs l).map .fattr ++
    (chunks l).map .chunkinfo)) := by
  induction l with
  | nil => exact .nil
  | cons m l ih =>
    cases m with
    | dentry d => exact ih.cons _
    | fattr f => exact (ih.cons _).trans List.perm_middle.symm
    | chunkinfo c =>
      refine (ih.cons _).trans ?_
      exact List.perm_middle.symm.trans (List.perm_middle.symm.append_left _)

/-- Trees with the same entries and chunks, and with attributes that differ in times, sizes and replicas only. -/
theorem Alike.of_kinds {g : MetaFattr → MetaFattr} (hd : List.Perm (dentries l') (dentries l))
    (hf : List.Perm (fattrs l') ((fattrs l).map g)) (hc : List.Perm (Kfs.chunks l') (Kfs.chunks l))
    (hg : ∀ f ∈ fattrs l, (g f).core false = f.core false) (ho : Ordered (l.map Meta.key))
    (ho' : Ordered (l'.map Meta.key)) : Alike l l' := by
  refine ⟨?_, ho, ho'⟩
  have hattr : ((fattrs l).map g).map (Meta.core false ∘ Meta.fattr) =
      (fattrs l).map (Meta.core false ∘ Meta.fattr) := by
    rw [List.map_map]
    exact List.map_congr_left fun f hmem => congrArg Meta.fattr (hg f hmem)
  refine ((perm_kinds l).map _).trans (List.Perm.trans ?_ ((perm_kinds l').map _).symm)
  simp only [List.map_append, List.map_map]
  refine (hd.symm.map _).append (List.Perm.append ?_ (hc.symm.map _))
  rw [← hattr]
  exact hf.symm.map _

/-- What follows a state with other times follows it still. -/
theorem Twin.alike (h : Twin true ∅ ∅ l l') : Alike l l' := by
  have hcore : ∀ l : List Meta, (l.map (Meta.core true)).map (Meta.core false) = l.map (Meta.core false) := by
    intro l
    rw [List.map_map]
    refine List.map_congr_left fun m _ => ?_
    cases m <;> rfl
  have heq := congrArg (List.map (Meta.core false)) (show l.map (Meta.core true) = l'.map (Meta.core true) by
    have hsame := h.same
    rwa [Same, filter_visible_empty, filter_visible_empty] at hsame)
  rw [hcore, hcore] at heq
  exact ⟨heq ▸ .refl _, h.ord, h.ord'⟩

theorem feed_keeps {σ : Type} {parse : LineParser σ} {P : σ → Prop}
    (hstep : ∀ {s s' line}, P s → parse s line = some (true, s') → P s') : ∀ {lines : List Str} {s s' : σ}, P s →
    feed parse s lines = some (true, s') → P s'
  | [], s, s', h, hf => by
    cases hf
    exact h
  | line :: lines, s, s', h, hf => by
    rw [feed] at hf
    split_ifs at hf
    · cases hp : parse s (cstring line) with
      | none =>
        rw [hp] at hf
        cases hf
      | some x =>
        obtain ⟨b, s₁⟩ := x
        rw [hp] at hf
        cases b with
        | false => cases hf
        | true => exact feed_keeps hstep (hstep h hp) hf
    · split at hf
      · cases hf
      · cases hf

/-- A restorer with its items in order. -/
def Restored.InOrder (r : Restored) : Prop := Ordered (r.fs.leaves.map Meta.key)

/-- A handler that keeps the order. -/
def KeepsOrder (handler : Restored → List Str → Option (Bool × Restored)) : Prop :=
  ∀ ⦃r c b r'⦄, r.InOrder → handler r c = some (b, r') → r'.InOrder

theorem Restored.InOrder.insert {r : Restored} (h : r.InOrder) {m : Meta} (hm : m.key.Plain) : (r.insert m).InOrder :=
  Leaves.ordered_insert h hm

theorem popChunkinfo_plain {c : List Str} {ch : MetaChunkInfo} (h : popChunkinfo c = some ch) : ch.offset ≠ -1 := by
  have hfid : ∀ {tag : Str} {c : List Str} {n : ℤ} {c'}, pop_fid tag c = some (n, c') → n ≠ -1 := by
    intro tag c n c' h
    rw [pop_fid.eq_def] at h
    split at h
    · split_ifs at h with hn
      cases h
      exact fun hneg => hn (Or.inr hneg)
    · cases h
  obtain ⟨⟨fid, c₁⟩, -, h⟩ := Option.bind_eq_some_iff.1 h
  obtain ⟨⟨cid, c₂⟩, -, h⟩ := Option.bind_eq_some_iff.1 h
  obtain ⟨⟨offset, c₃⟩, ho, h⟩ := Option.bind_eq_some_iff.1 h
  obtain ⟨⟨v, c₄⟩, -, h⟩ := Option.bind_eq_some_iff.1 h
  cases h
  exact hfid ho

theorem restore_chunkinfo_order : KeepsOrder restore_chunkinfo := by
  intro r c b r' h hr
  rw [restore_chunkinfo] at hr
  cases hc : popChunkinfo c with
  | none =>
    rw [hc] at hr
    cases hr
    exact h
  | some ch =>
    rw [hc] at hr
    dsimp only at hr
    have hins : Ordered ((Leaves.insert r.fs.leaves (.chunkinfo ch)).map Meta.key) :=
      Leaves.ordered_insert h (popChunkinfo_plain hc)
    cases hf : getFattr (Leaves.insert r.fs.leaves (.chunkinfo ch)) ch.id with
    | none =>
      rw [hf] at hr
      cases hr
    | some f =>
      rw [hf] at hr
      cases hr
      rw [Restored.InOrder, update_map_key]
      · exact hins
      · intro x _ hx
        obtain ⟨g, rfl, -⟩ := (eqv_fattr x ch.id).1 hx
        rfl

/-- The handlers of the seeds, the version, the time and the log leave the items alone. -/
theorem seeds_order : KeepsOrder checkpoint_seq ∧ KeepsOrder checkpoint_version ∧ KeepsOrder checkpoint_fid ∧
    KeepsOrder checkpoint_chunkId ∧ KeepsOrder checkpoint_time ∧ KeepsOrder checkpoint_log ∧
    KeepsOrder restoreVersionInc := by
  refine ⟨?_, ?_, ?_, ?_, ?_, ?_, ?_⟩ <;> intro r c b r' h hr
  · rw [checkpoint_seq] at hr
    split at hr <;> cases hr <;> exact h
  · cases hr
    exact h
  · rw [checkpoint_fid] at hr
    split at hr <;> cases hr <;> exact h
  · rw [checkpoint_chunkId] at hr
    split at hr <;> cases hr <;> exact h
  · rw [checkpoint_time] at hr
    split at hr <;> cases hr
    exact h
  · cases hr
    exact h
  · obtain ⟨⟨ok, fs⟩, hfs, he⟩ := Option.map_eq_some_iff.1 hr
    cases he
    rw [restore_chunkVersionInc] at hfs
    split at hfs <;> cases hfs <;> exact h

theorem restore_dentry_order : KeepsOrder restore_dentry := by
  intro r c b r' h hr
  rw [restore_dentry] at hr
  split at hr <;> cases hr
  · exact h
  · exact h.insert (plain_dentry _)

theorem restore_fattr_order : KeepsOrder (restore_fattr minReplicas) := by
  intro r c b r' h hr
  rw [restore_fattr] at hr
  split at hr <;> cases hr
  · exact h
  · exact h.insert (plain_fattr _)

theorem KeepsOrder.ite {p : Prop} [Decidable p] {handler : Restored → List Str → Option (Bool × Restored)}
    {g : Option (Restored → List Str → Option (Bool × Restored))} (h : KeepsOrder handler)
    (hg : ∀ k ∈ g, KeepsOrder k) : ∀ k ∈ (if p then some handler else g), KeepsOrder k := by
  intro k hk
  split_ifs at hk
  · obtain rfl := Option.some.inj hk
    exact h
  · exact hg k hk

theorem restoreTable_order (type : Str) : ∀ k ∈ restoreTable minReplicas type, KeepsOrder k := by
  obtain ⟨hseq, hversion, hfid, hchunkId, htime, hlog, hinc⟩ := seeds_order
  unfold restoreTable
  refine hseq.ite (hversion.ite (hfid.ite (hchunkId.ite (htime.ite (hlog.ite (hinc.ite ?_))))))
  exact restore_dentry_order.ite (restore_fattr_order.ite (restore_chunkinfo_order.ite fun k hk => by cases hk))

/-- A restored tree is in order, whatever the text is. -/
theorem restoreLine_order {r r' : Restored} {line : Str} {b : Bool} (h : r.InOrder)
    (hp : restoreLine minReplicas r line = some (b, r')) : r'.InOrder := by
  rw [restoreLine, parseEntry] at hp
  split_ifs at hp
  · cases hp
    exact h
  · cases ht : restoreTable minReplicas ((line.splitOn '/').headD []) with
    | none =>
      rw [ht] at hp
      cases hp
      exact h
    | some handler =>
      rw [ht] at hp
      exact restoreTable_order _ handler ht h hp

/-- The lines of the checkpoint are read as they were written. -/
structure Checkpoint.Readable (c : Checkpoint) : Prop where
  header : ∀ line ∈ headerLines c.highest c.fs c.stamp c.logname, FitLine line
  items : ∀ m ∈ c.fs.leaves, FitLine m.show
  inRange : ∀ m ∈ c.fs.leaves, m.InRange

instance (c : Checkpoint) : Decidable c.Readable :=
  decidable_of_iff ((∀ line ∈ headerLines c.highest c.fs c.stamp c.logname, FitLine line) ∧
      (∀ m ∈ c.fs.leaves, FitLine m.show) ∧ ∀ m ∈ c.fs.leaves, m.InRange)
    ⟨fun ⟨h₁, h₂, h₃⟩ => ⟨h₁, h₂, h₃⟩, fun h => ⟨h.header, h.items, h.inRange⟩⟩

variable (minReplicas) in
theorem Checkpoint.rebuild_text {c : Checkpoint} (hwf : WellFormed c.fs) (hr : c.Readable) (hn : 0 ≤ c.highest) :
    ∃ l', rebuild minReplicas emptyRestored c.text = some (true,
        ⟨⟨l', c.fs.fileID, c.fs.chunkID, c.fs.chunkVersionInc, emptyRestored.fs.counter⟩, c.highest, c.logname⟩) ∧
      Restoring minReplicas c.fs.leaves l' := by
  have hall : ∀ line ∈ headerLines c.highest c.fs c.stamp c.logname ++ c.fs.leaves.map Meta.show, FitLine line := by
    intro line hl
    rcases List.mem_append.1 hl with hl | hl
    · exact hr.header line hl
    · obtain ⟨m, hm, rfl⟩ := List.mem_map.1 hl
      exact hr.items m hm
  have hempty : Restoring minReplicas [] emptyRestored.fs.leaves := ⟨.refl _, .refl _, .refl _⟩
  obtain ⟨l', hfeed, hl'⟩ := feed_items (s := ⟨⟨emptyRestored.fs.leaves, c.fs.fileID, c.fs.chunkID,
    c.fs.chunkVersionInc, emptyRestored.fs.counter⟩, c.highest, c.logname⟩) hwf hr.items rfl hempty
  refine ⟨l', ?_, hl'⟩
  rw [rebuild, Checkpoint.text, checkpointText, splitOn_text hall, List.append_assoc, feed_header hwf hn hr.header]
  exact hfeed

/-- Each count of chunks is right. -/
def CountsRight (l : List Meta) : Prop :=
  ∀ f ∈ fattrs l, f.chunkcount = ((chunks l).filter fun c => decide (c.id = f.id)).length

variable (minReplicas) in
/-- **A checkpoint comes back** with the same items and seeds. -/
theorem reload {c : Checkpoint} (hwf : WellFormed c.fs) (hcount : CountsRight c.fs.leaves) (hr : c.Readable)
    (hn : 0 ≤ c.highest) : ∃ r, rebuild minReplicas emptyRestored c.text = some (true, r) ∧
      Resembles c.fs r.fs ∧ r.seqno = c.highest ∧ r.log = c.logname := by
  obtain ⟨l', hrebuild, hl'⟩ := c.rebuild_text minReplicas hwf hr hn
  refine ⟨_, hrebuild, ⟨?_, rfl, rfl, rfl⟩, rfl, rfl⟩
  have hord : Ordered (l'.map Meta.key) :=
    feed_keeps (P := Restored.InOrder) restoreLine_order (by simp [Restored.InOrder, emptyRestored, Ordered]) hrebuild
  refine Alike.of_kinds hl'.dentries hl'.fattrs hl'.chunks (fun f hf => ?_) hwf.ordered hord
  exact MetaFattr.core_eq_iff.2 ⟨rfl, rfl, fun hn => absurd hn (by decide), (hcount f hf).symm⟩

/-! ## The files -/

section

variable {files : List LogFile}

theorem openlog_logfile {n : ℕ} (h : ∃ f ∈ files, f.number = n) :
    openlog logdir files (logfile logdir n) = some (n : ℤ) := by
  obtain ⟨f, hf, rfl⟩ := h
  have hthere : (files.any fun g => decide (logfile logdir g.number = logfile logdir f.number)) = true :=
    List.any_eq_true.2 ⟨f, hf, decide_eq_true rfl⟩
  have hpath : logfile logdir f.number = (logdir ++ "/log".toList) ++ '.' :: num f.number := by
    rw [logfile, List.append_assoc, List.append_assoc]
    rfl
  have hdot : '.' ∈ logfile logdir f.number := by simp [hpath]
  have hnum : ∀ c ∈ (num f.number).reverse, decide (c ≠ '.') = true := by
    intro c hc
    refine decide_eq_true ?_
    rintro rfl
    exact num_not_mem f.number (by decide) (by decide) (List.mem_reverse.1 hc)
  have hlast : ((logfile logdir f.number).reverse.takeWhile (· ≠ '.')).reverse = num f.number := by
    rw [hpath, List.reverse_append, List.reverse_cons, List.append_assoc, List.takeWhile_append_of_pos hnum]
    simp
  rw [openlog, if_pos hthere, if_pos hdot, hlast]
  dsimp only
  rw [num, strtoll_printInt, if_pos (Int.natCast_nonneg _)]

/-- The files are there with the numbers from 0 on. -/
def Gaplessly (files : List LogFile) : Prop := files.map LogFile.number = List.range files.length

theorem Gaplessly.numbers (h : Gaplessly files) : numbers files = Finset.range files.length := by
  rw [Kfs.numbers, h]
  ext n
  simp

theorem Gaplessly.find (h : Gaplessly files) {n : ℕ} (hn : n < files.length) :
    files.find? (fun f => decide (f.number = n)) = some files[n] := by
  have hget : ∀ i (hi : i < files.length), files[i].number = i := by
    intro i hi
    have hi' : i < (files.map LogFile.number).length := by rwa [List.length_map]
    have hmap : (files.map LogFile.number)[i] = i := by
      simp only [show files.map LogFile.number = List.range files.length from h, List.getElem_range]
    rwa [List.getElem_map] at hmap
  rw [List.find?_eq_some_iff_getElem]
  refine ⟨decide_eq_true (hget n hn), n, hn, rfl, fun j hj => ?_⟩
  rw [hget j (hj.trans hn)]
  simpa using hj.ne

theorem gaplessly_concat {f : LogFile} : Gaplessly (files ++ [f]) ↔ Gaplessly files ∧ f.number = files.length := by
  rw [Gaplessly, Gaplessly, List.map_append, List.length_append, List.length_singleton, List.range_succ,
    List.map_singleton]
  constructor
  · intro h
    obtain ⟨hfs, hf⟩ := List.append_inj' h rfl
    exact ⟨hfs, List.singleton_inj.1 hf⟩
  · rintro ⟨hfs, hf⟩
    rw [hfs, hf]

/-- The files with the numbers from `k` on are those that come there. -/
theorem Gaplessly.pick (h : Gaplessly files) : ∀ {j k : ℕ}, k + j ≤ files.length →
    pick files (List.range' k j) = (files.drop k).take j
  | 0, k, _ => by simp [Kfs.pick]
  | j + 1, k, hle => by
    have hk : k < files.length := by omega
    rw [List.range'_succ, Kfs.pick, List.filterMap_cons, h.find hk, List.drop_eq_getElem_cons hk, List.take_succ_cons]
    exact congrArg _ (h.pick (by omega))

end

/-! ## The replays of a run -/

/-- Each record is that of a step, so a first part of the log is that of a first part of the run. -/
theorem Run.log_prefix {C : Sys → Event → Prop} {es : List Event} {log log₁ : List LogRec} (hr : Run C s₀ es s log)
    (hp : log₁ <+: log) : ∃ es₁ s₁, Run C s₀ es₁ s₁ log₁ := by
  induction hr with
  | nil =>
    obtain rfl := List.prefix_nil.1 hp
    exact ⟨[], s₀, .nil⟩
  | step hr hC ho ih =>
    rcases (handle_cases ho).log_le with hlog | ⟨r, hlog, -⟩
    · rw [hlog, List.append_nil] at hp
      exact ih hp
    · rw [hlog, List.prefix_concat_iff] at hp
      rcases hp with rfl | hp
      · exact ⟨_, _, hlog ▸ hr.step hC ho⟩
      · exact ih hp

/-- Requests that keep the tree of directories and the table of the chunks. -/
structure SoundStep (s : Sys) (e : Event) : Prop extends NamedStep s e where
  regular : Regular s e
  ofFile : allocatesNonFile s.fs.leaves e.req = false

instance (s : Sys) (e : Event) : Decidable (SoundStep s e) :=
  decidable_of_iff (NamedStep s e ∧ Regular s e ∧ allocatesNonFile s.fs.leaves e.req = false)
    ⟨fun ⟨h₁, h₂, h₃⟩ => ⟨h₁, h₂, h₃⟩, fun h => ⟨h.toNamedStep, h.regular, h.ofFile⟩⟩

/-- The server of a new installation: an empty tree, an incarnation and a dumpster. -/
def Fresh (s₀ : Sys) : Prop :=
  ∃ env fs o, newTree env = some fs ∧
    handle false env (changeIncarnationNumber ⟨fs, []⟩).sys .emptyDumpsterDir = some o ∧ s₀ = o.sys

/-- What holds in every state. -/
structure Sys.Sound (s : Sys) : Prop where
  numbered : Numbered s
  matched : Matched s
  intact : Intact s
  chunks : ChunkInv s

theorem Handled.newId {env : Env} {req : Req} {o : Out} {r : LogRec} (hN : Numbered s)
    (hn : ∀ n ∈ req.names, legalname n = true) (ho : Handled env s req o) (hr : r ∈ o.log) :
    ∀ id ∈ r.newId, id ≠ 0 := by
  have hroot : (2 : ℤ) ≤ s.fs.fileID := hN.tidy.root
  have hnone : ∀ {s : Sys} {st : ℤ} {fs' : Fs} {r' : LogRec}, r'.newId = none → r ∈ (done s st fs' r').log →
      ∀ id ∈ r.newId, id ≠ 0 := by
    intro s st fs' r' hr' hr id hid
    rw [(done_log hr).2, hr'] at hid
    cases hid
  cases ho with
  | refused => cases hr
  | @create dir name n exclusive st id fs' hd hc =>
    obtain ⟨rfl, rfl⟩ := done_log hr
    rintro _ ⟨⟩
    rcases create_spec hc with ⟨h0, -⟩ | ⟨-, -, fa, hl, hfa, st₁, fs₁, hrm, ⟨h₁, h₂, -⟩ | ⟨-, -, hid, -⟩⟩
    · exact absurd h0 (lt_irrefl _)
    · exact absurd (h₁.symm.trans h₂.symm) (by decide)
    · have hle := (removeOld_tidy hN.tidy hrm).2
      rw [if_pos rfl] at hid
      omega
  | @mkdir dir name st id fs' hd hm =>
    obtain ⟨rfl, rfl⟩ := done_log hr
    rintro _ ⟨⟩
    rcases mkdir_spec hm with ⟨h0, -⟩ | ⟨-, -, -, ⟨-, -, hid, -⟩ | ⟨-, hs, -⟩ | ⟨h0, -⟩⟩
    · exact absurd h0 (lt_irrefl _)
    · omega
    · exact absurd (hs ▸ hn name List.mem_cons_self) (by decide)
    · exact absurd rfl h0
  | remove | rmdir | rename | assigned | truncate => exact hnone rfl hr
  | allocate ha =>
    rcases startAllocate_spec ha with
      ⟨-, rfl⟩ | ⟨fa, -, -, -, ⟨c, -, ⟨st, -, rfl⟩ | ⟨-, rfl⟩ | ⟨-, rfl⟩⟩ | ⟨-, ⟨-, rfl⟩ | ⟨-, rfl⟩⟩⟩
    · cases hr
    · cases hr
    · exact hnone rfl hr
    · cases hr
    · cases hr
    · cases hr
  | layoutFailed | changeIncarnationNumber => exact hnone rfl hr
  | truncateAlloc | changeFileReplication | cleanupDumpster | emptyDumpsterDir => cases hr

theorem Sys.Sound.run {es : List Event} {log : List LogRec} (h : s₀.Sound) (hr : Run SoundStep s₀ es s log) :
    s.Sound ∧ ∀ r ∈ log, ∀ id ∈ r.newId, id ≠ 0 := by
  induction hr with
  | nil => exact ⟨h, fun r hr => absurd hr List.not_mem_nil⟩
  | step hr hC ho ih =>
    obtain ⟨hs, hids⟩ := ih
    have hcases := handle_cases ho
    refine ⟨⟨handle_numbered hs.numbered hC.parsed hcases, handle_matched hs.numbered hs.matched hC.one hcases,
      handle_intact hs.intact hC.regular ho, handle_chunks hs.chunks hC.ofFile hcases⟩, fun r hr => ?_⟩
    rcases List.mem_append.1 hr with hr | hr
    · exact hids r hr
    · exact hcases.newId hs.numbered (fun n hn => hC.legal hn) hr

theorem redoAssign_inc {fid offset cid v : ℤ} (h : 1 ≤ R.chunkVersionInc)
    (hr : redoAssign env R fid offset cid v = some (true, R₁)) : 1 ≤ R₁.chunkVersionInc := by
  cases ha : assignChunkId env R fid offset cid v with
  | mk st fs₁ =>
  have hinc : 1 ≤ fs₁.chunkVersionInc := by
    rcases assignChunkId_spec ha with
      ⟨-, -, rfl⟩ | ⟨fa, -, ⟨d, -, -, -, rfl⟩ | ⟨d, -, -, -, rfl⟩ | ⟨-, -, rfl⟩⟩ <;> exact h
  rw [redoAssign, ha] at hr
  dsimp only at hr
  split_ifs at hr
  · obtain ⟨seed, -, he⟩ := Option.map_eq_some_iff.1 hr
    cases he
    exact hinc
  · cases hr
    exact hinc
  · cases hr

theorem redoAllocate_inc {fid offset cid v : ℤ} (h : 1 ≤ R.chunkVersionInc)
    (hr : redoAllocate env R fid offset cid v = some (true, R₁)) : 1 ≤ R₁.chunkVersionInc := by
  rw [redoAllocate] at hr
  cases hf : getFattr R.leaves fid with
  | none =>
    rw [hf] at hr
    cases hr
    exact h
  | some fa =>
    rw [hf] at hr
    dsimp only at hr
    cases ha : allocateChunkId R fid offset cid false with
    | none =>
      rw [ha] at hr
      cases hr
    | some x =>
      obtain ⟨st, cid₁, v₁, fs₁⟩ := x
      have hinc : 1 ≤ fs₁.chunkVersionInc := by
        rcases allocateChunkId_redo hf ha with ⟨c, -, -, -, rfl⟩ | ⟨-, -, rfl | rfl⟩ <;> exact h
      rw [ha] at hr
      dsimp only at hr
      split_ifs at hr
      · cases hr
        exact hinc
      · exact redoAssign_inc hinc hr
      · cases hr

/-- A record that is accepted leaves a number that the restorer takes. -/
theorem redo_inc {r : LogRec} (h : 1 ≤ R.chunkVersionInc) (hr : redo env R r = some (true, R₁)) :
    1 ≤ R₁.chunkVersionInc := by
  have hnew : ∀ {x : Option (ℤ × ℤ × Fs)}, (∀ st id fs', x = some (st, id, fs') → NameEdits R fs') →
      redoNew x = some (true, R₁) → 1 ≤ R₁.chunkVersionInc := by
    intro x hx hr
    cases x with
    | none => cases hr
    | some y =>
      obtain ⟨st, id, fs'⟩ := y
      rw [redoNew] at hr
      split_ifs at hr
      · obtain ⟨seed, -, he⟩ := Option.map_eq_some_iff.1 hr
        cases he
        exact h.trans_eq (hx st id fs' rfl).inc.symm
      · cases hr
  cases r with
  | create dir name fid n => exact hnew (fun st id fs' hc => create_edits hc) hr
  | mkdir dir name fid => exact hnew (fun st id fs' hc => mkdir_edits hc) hr
  | remove dir name => exact h.trans_eq (removeF_edits env 2 (redoStatus_eq hr)).inc.symm
  | rmdir dir name => exact h.trans_eq (rmdir_edits (redoStatus_eq hr)).inc.symm
  | rename dir oldname newname =>
    exact h.trans_eq (renameWith_edits (removeF_edits env 2) (redoStatus_eq hr)).inc.symm
  | allocate fid offset cid v => exact redoAllocate_inc h hr
  | truncate fid offset =>
    obtain ⟨⟨st, a, fs'⟩, ht, he⟩ := Option.map_eq_some_iff.1 hr
    obtain ⟨-, rfl⟩ := Prod.mk.inj he
    exact h.trans_eq (truncate_edits ht).inc.symm
  | chunkVersionInc n =>
    obtain ⟨hn, rfl⟩ := Prod.mk.inj (Option.some.inj hr)
    exact of_decide_eq_true hn

theorem redoAll_later : ∀ {rs : List LogRec} {R : Fs}, Seeds R → 1 ≤ R.chunkVersionInc →
    redoAll env R rs = some (true, R₁) → Later R R₁ ∧ 1 ≤ R₁.chunkVersionInc
  | [], R, _, hinc, hr => by
    cases hr
    exact ⟨.refl _, hinc⟩
  | r :: rs, R, hs, hinc, hr => by
    rw [redoAll] at hr
    cases hd : redo env R r with
    | none =>
      rw [hd] at hr
      cases hr
    | some x =>
      obtain ⟨b, R₂⟩ := x
      rw [hd] at hr
      cases b with
      | false => cases hr
      | true =>
        obtain ⟨hs₂, hl₂, -⟩ := redo_below_iff hs hd
        obtain ⟨hl, hinc'⟩ := redoAll_later hs₂ (redo_inc hinc hd) hr
        exact ⟨hl₂.trans hl, hinc'⟩

/-- A start whose seeds the restorer takes. -/
structure Founded (s₀ : Sys) : Prop extends s₀.Sound where
  chunkID : 0 < s₀.fs.chunkID
  inc : 1 ≤ s₀.fs.chunkVersionInc

theorem Fresh.founded (h : Fresh s₀) : Founded s₀ := by
  obtain ⟨env, fs, o, htree, ho, rfl⟩ := h
  have hinc : handle false env ⟨fs, []⟩ .changeIncarnationNumber = some (changeIncarnationNumber ⟨fs, []⟩) := rfl
  have hparsed : Req.Parsed .changeIncarnationNumber ∧ Req.Parsed .emptyDumpsterDir := ⟨trivial, trivial⟩
  have hN₀ := newTree_numbered htree
  have hI₁ := handle_intact (e := ⟨false, env, .changeIncarnationNumber⟩) (newTree_intact htree) ⟨rfl, rfl⟩ hinc
  have hN₁ := handle_numbered hN₀ hparsed.1 (handle_cases hinc)
  have hC₁ := handle_chunks (newTree_chunks htree) rfl (handle_cases hinc)
  obtain ⟨n, hn, heq⟩ := changeIncarnationNumber_eq (s := ⟨fs, []⟩) hN₀.inc
  rw [heq] at ho hI₁ hN₁ hC₁
  have hI := handle_intact (e := ⟨false, env, .emptyDumpsterDir⟩) hI₁ ⟨rfl, rfl⟩ ho
  have hN := handle_numbered hN₁ hparsed.2 (handle_cases ho)
  have hC := handle_chunks hC₁ rfl (handle_cases ho)
  obtain ⟨fs', hempty, rfl⟩ := Option.map_eq_some_iff.1 ho
  have hedits := emptyDumpsterDir_edits hempty
  have hroot : fs.chunkID = ROOTFID := by
    rw [newTree_eq] at htree
    rw [← Option.some.inj htree]
  refine ⟨⟨hN, fun a ha => absurd ha List.not_mem_nil, hI, hC⟩, ?_, ?_⟩
  · refine lt_of_lt_of_eq ?_ hedits.chunkID.symm
    change 0 < fs.chunkID
    rw [hroot]
    decide
  · exact hn.trans_eq hedits.inc.symm

/-- The tree of a replay of the records so far. -/
structure Replayed (s₀ : Sys) (log : List LogRec) (R : Fs) : Prop where
  redo : redoAll idleEnv s₀.fs log = some (true, R)
  uniq : Uniq R.leaves
  counts : CountsRight R.leaves
  owner : ∀ c ∈ chunks R.leaves, ∃ f ∈ fattrs R.leaves, f.id = c.id
  fileID : 0 < R.fileID
  chunkID : 0 < R.chunkID
  inc : 1 ≤ R.chunkVersionInc

/-- Every run is replayed, to a tree that follows its state. -/
theorem Run.replayed {es : List Event} {log : List LogRec} (h : Founded s₀) (hr : Run SoundStep s₀ es s log) :
    ∃ R, Replayed s₀ log R ∧ Follows s R := by
  obtain ⟨hs, -⟩ := h.toSound.run hr
  have hnamed : Run NamedStep s₀ es s log := by
    induction hr with
    | nil => exact .nil
    | step hr hC ho ih => exact (ih (h.toSound.run hr).1).step hC.toNamedStep ho
  obtain ⟨-, -, R, hR, hF⟩ := @Run.follows idleEnv _ _ _ _ (fun _ => rfl) h.numbered h.matched hnamed
  have ha := hF.twin.alike
  have hchunks := ha.chunks
  have hroot : ∀ {s : Sys}, s.Sound → 0 < s.fs.fileID := fun hs =>
    (by decide : (0 : ℤ) < ROOTFID).trans_le hs.numbered.tidy.root
  have hseeds : Seeds s₀.fs := ⟨(hroot h.toSound).le, fun c hc => (h.numbered.chunk c hc).2.1⟩
  obtain ⟨hlater, hinc⟩ := redoAll_later hseeds h.inc hR
  refine ⟨R, ⟨hR, ha.uniq hs.intact.hier.uniq, fun f hf => ?_, fun c hc => ?_, ?_, ?_, hinc⟩, hF⟩
  · obtain ⟨g, hg, he⟩ := ha.symm.fattr (mem_fattrs.1 hf)
    obtain ⟨hid, -, hct⟩ := core_fields he
    rw [← hct, hs.chunks.chunksOK.count g (mem_fattrs.2 hg), hid, List.countP_eq_length_filter]
    exact congrArg Int.ofNat (hchunks.filter _).length_eq
  · obtain ⟨g, hg, hid, -⟩ := hs.chunks.chunksOK.owner c (hchunks.mem_iff.2 hc)
    obtain ⟨f, hf, he⟩ := ha.fattr (mem_fattrs.1 hg)
    exact ⟨f, mem_fattrs.2 hf, (core_fields he).1.trans hid⟩
  · rw [hF.fileID]
    exact hroot hs
  · exact h.chunkID.trans_le hlater.chunkID

/-- Records that are accepted on one side are accepted on the other. -/
theorem redoAll_alike (hidle : ∀ c, env.leased c = false) (hidle' : ∀ c, env'.leased c = false) :
    ∀ {rs : List LogRec} {R T : Fs}, Resembles R T → (∀ rs₁ R₂, rs₁ <+: rs → redoAll env R rs₁ = some (true, R₂) →
      Uniq R₂.leaves) → (∀ r ∈ rs, ∀ id ∈ r.newId, id ≠ 0) → redoAll env R rs = some (true, R₁) →
      ∃ T₁, redoAll env' T rs = some (true, T₁) ∧ Resembles R₁ T₁
  | [], R, T, h, _, _, hr => by
    cases hr
    exact ⟨T, rfl, h⟩
  | r :: rs, R, T, h, hu, hid, hr => by
    rw [redoAll] at hr ⊢
    cases hd : redo env R r with
    | none =>
      rw [hd] at hr
      cases hr
    | some x =>
      obtain ⟨b, R₂⟩ := x
      rw [hd] at hr
      cases b with
      | false => cases hr
      | true =>
        obtain ⟨T₂, hd', h₂⟩ := redo_alike hidle hidle' h (hu [] R (List.nil_prefix) rfl)
          (hid r List.mem_cons_self) hd
        rw [hd']
        refine redoAll_alike hidle hidle' h₂ (fun rs₁ R₃ hp hr₃ => ?_)
          (fun r' hr' => hid r' (List.mem_cons_of_mem _ hr')) hr
        refine hu (r :: rs₁) R₃ ((List.prefix_cons_inj r).2 hp) ?_
        rw [redoAll, hd]
        exact hr₃

/-- The records in the files. -/
def recordsIn (files : List LogFile) : List LogRec := files.flatMap fun f => records f.lines

/-- Files of whole lines that are read back, with the numbers from 0 on. -/
structure Whole (files : List LogFile) : Prop where
  gapless : Gaplessly files
  torn : ∀ f ∈ files, f.torn = []
  sound : ∀ f ∈ files, ∀ e ∈ f.lines, e.Sound

/-- **The files from the `k`-th on are played** on a tree that resembles that of the records before. -/
theorem playFiles_alike {files : List LogFile} {es : List Event} {k m : ℕ} (h : Founded s₀) (hf : Whole files)
    (hr : Run SoundStep s₀ es s (recordsIn files)) (hidle : ∀ c, env.leased c = false) (hk : k ≤ m)
    (hm : m ≤ files.length) (hR : Replayed s₀ (recordsIn (files.take k)) R) (hT : Resembles R T) :
    ∃ T' R', playFiles env T (pick files (List.range' k (m - k))) = some (true, T') ∧
      Replayed s₀ (recordsIn (files.take m)) R' ∧ Resembles R' T' := by
  have hpick : pick files (List.range' k (m - k)) = (files.drop k).take (m - k) := hf.gapless.pick (by omega)
  have hsplit : files.take m = files.take k ++ (files.drop k).take (m - k) := by
    rw [← List.take_add, Nat.add_sub_cancel' hk]
  have hrec : recordsIn (files.take m) = recordsIn (files.take k) ++ recordsIn ((files.drop k).take (m - k)) := by
    rw [hsplit, recordsIn, List.flatMap_append]
    rfl
  have hfirst : recordsIn (files.take m) <+: recordsIn files := by
    conv_rhs => rw [← List.take_append_drop m files, recordsIn, List.flatMap_append]
    exact List.prefix_append _ _
  have hreach : ∀ {log}, log <+: recordsIn (files.take m) → ∃ R, Replayed s₀ log R := by
    intro log hp
    obtain ⟨es₁, s₁, hr₁⟩ := hr.log_prefix (hp.trans hfirst)
    obtain ⟨R₁, hR₁, -⟩ := hr₁.replayed h
    exact ⟨R₁, hR₁⟩
  obtain ⟨R', hR'⟩ := hreach List.prefix_rfl
  have hredo : redoAll idleEnv R (recordsIn ((files.drop k).take (m - k))) = some (true, R') := by
    rw [← redoAll_append hR.redo, ← hrec]
    exact hR'.redo
  have huniq : ∀ rs₁ R₂, rs₁ <+: recordsIn ((files.drop k).take (m - k)) →
      redoAll idleEnv R rs₁ = some (true, R₂) → Uniq R₂.leaves := by
    intro rs₁ R₂ hp hr₂
    have hp' : recordsIn (files.take k) ++ rs₁ <+: recordsIn (files.take m) := by
      rw [hrec]
      exact (List.prefix_append_right_inj _).2 hp
    obtain ⟨R₃, hR₃⟩ := hreach hp'
    have hr₃ := hR₃.redo
    rw [redoAll_append hR.redo, hr₂] at hr₃
    cases hr₃
    exact hR₃.uniq
  have hids : ∀ r ∈ recordsIn ((files.drop k).take (m - k)), ∀ id ∈ r.newId, id ≠ 0 := by
    intro r hmem
    refine (h.toSound.run hr).2 r (hfirst.subset ?_)
    rw [hrec]
    exact List.mem_append_right _ hmem
  obtain ⟨T', hplay, hres⟩ := redoAll_alike (fun _ => rfl) hidle hT huniq hids hredo
  refine ⟨T', R', ?_, hR', hres⟩
  rw [hpick]
  refine playFiles_readBack (Oplog.readRecords_files (fun f hmem => ?_) fun f hmem => ?_) ?_
  · exact hf.torn f (List.mem_of_mem_drop (List.mem_of_mem_take hmem))
  · exact hf.sound f (List.mem_of_mem_drop (List.mem_of_mem_take hmem))
  · exact hplay

variable (minReplicas) in
/-- What resembles a replayed tree can be written and comes back. -/
theorem Replayed.reload {log : List LogRec} {c : Checkpoint} (hR : Replayed s₀ log R) (hT : Resembles R c.fs)
    (hr : c.Readable) (hn : 0 ≤ c.highest) : ∃ r, rebuild minReplicas emptyRestored c.text = some (true, r) ∧
      Resembles R r.fs ∧ r.seqno = c.highest ∧ r.log = c.logname := by
  have ha := hT.leaves
  have hu := ha.uniq hR.uniq
  have hwf : WellFormed c.fs := by
    refine ⟨ha.ord', hr.inRange, ?_, fun d hd => ?_, ?_, ?_, ?_⟩
    · refine List.Nodup.map_on (fun f hf g hg he => ?_) hu.fattrs_nodup
      exact hu.eq_of_id (mem_fattrs.1 hf) (mem_fattrs.1 hg) he
    · obtain ⟨f, hf, hid⟩ := hR.owner d (ha.chunks.mem_iff.2 hd)
      obtain ⟨f', hf', he⟩ := ha.fattr (mem_fattrs.1 hf)
      exact ⟨f', mem_fattrs.2 hf', (core_fields he).1.trans hid⟩
    · exact hT.fileID ▸ hR.fileID
    · exact hT.chunkID ▸ hR.chunkID
    · exact hT.chunkVersionInc ▸ hR.inc
  have hcounts : CountsRight c.fs.leaves := by
    intro f hf
    obtain ⟨g, hg, he⟩ := ha.symm.fattr (mem_fattrs.1 hf)
    obtain ⟨hid, -, hct⟩ := core_fields he
    rw [← hct, hR.counts g (mem_fattrs.2 hg), hid]
    exact congrArg Int.ofNat (ha.chunks.filter _).length_eq
  obtain ⟨r, hr, hres, hseq, hlog⟩ := Kfs.reload minReplicas hwf hcounts hr hn
  exact ⟨r, hr, ⟨ha.trans hres.leaves, hres.fileID.trans hT.fileID, hres.chunkID.trans hT.chunkID,
    hres.chunkVersionInc.trans hT.chunkVersionInc⟩, hseq, hlog⟩

/-! ## The installation -/

/-- The server, and the text behind the link to the latest checkpoint. -/
structure Installation where
  server : MetaServer
  cp : Str

inductive InstallationEv
  | server (ev : MetaServerEv)
  /-- a whole run of the log compactor -/
  | compact (now : Timeval) (stamp : Str)

def Oplog.files (o : Oplog) : List LogFile := o.closed ++ [o.file]

/-- The number of the file behind `LASTLOG`, to which `finishLog` links. -/
def Oplog.last (o : Oplog) : Option ℕ := o.closed.getLast?.map LogFile.number

namespace Installation

variable (logdir : Str)

/-- `initial_CP` on the tree of the start, before a client can connect. -/
def initialCP (s₀ : Sys) (stamp : Str) : Checkpoint := ⟨0, s₀.fs, stamp, logfile logdir 0⟩

/-- The first start: the log is `log.0`, which `opened` is the time of. -/
def start (s₀ : Sys) (stamp opened : Str) : Installation :=
  ⟨.start 0 0 [.version, .time opened] s₀, (initialCP logdir s₀ stamp).text⟩

/-- What the compactor writes now. -/
def compaction (b : Installation) (now : Timeval) (stamp : Str) : Option Checkpoint :=
  compactor ⟨now, fun _ => false⟩ stamp logdir b.server.oplog.files b.server.oplog.last b.cp

def step (b : Installation) : InstallationEv → Option Installation
  | .server ev => (b.server.step ev).map fun server => { b with server }
  | .compact now stamp => some { b with cp := ((b.compaction logdir now stamp).map Checkpoint.text).getD b.cp }

def run (b : Installation) : List InstallationEv → Option Installation
  | [] => some b
  | ev :: evs => (b.step logdir ev).bind fun b => b.run evs

/-- The requests and the logger are as they should be, and the compactor writes what can be read. -/
def Fine (b : Installation) : InstallationEv → Prop
  | .server ev => ev.FineBy SoundStep b.server
  | .compact now stamp => ∀ c ∈ b.compaction logdir now stamp, c.Readable

def FineRun (b : Installation) : List InstallationEv → Prop
  | [] => True
  | ev :: evs => b.Fine logdir ev ∧ ∀ b' ∈ b.step logdir ev, b'.FineRun evs

instance (b : Installation) (ev : InstallationEv) : Decidable (b.Fine logdir ev) := by
  unfold Fine
  split <;> infer_instance

instance decidableFineRun : ∀ (b : Installation) (evs : List InstallationEv), Decidable (b.FineRun logdir evs)
  | _, [] => inferInstanceAs (Decidable True)
  | b, ev :: evs =>
    have : ∀ b' : Installation, Decidable (b'.FineRun logdir evs) := fun b' => decidableFineRun b' evs
    inferInstanceAs (Decidable (b.Fine logdir ev ∧ ∀ b' ∈ b.step logdir ev, b'.FineRun logdir evs))

end Installation

/-! ## What the latest checkpoint holds -/

/-- The latest checkpoint is that of a tree that resembles the one of the records before the file that it names. -/
structure Backed (logdir : Str) (lines : List LogLine) (s₀ : Sys) (b : Installation) : Prop where
  durable : Durable SoundStep lines s₀ b.server
  gapless : Gaplessly b.server.oplog.files
  cp : ∃ (c : Checkpoint) (k : ℕ) (R : Fs), b.cp = c.text ∧ c.Readable ∧ 0 ≤ c.highest ∧ c.logname = logfile logdir k ∧
    k ≤ b.server.oplog.closed.length ∧ Replayed s₀ (recordsIn (b.server.oplog.closed.take k)) R ∧ Resembles R c.fs

namespace Backed

variable {lines : List LogLine} {b b' : Installation}

theorem whole (h : Backed logdir lines s₀ b) : Whole b.server.oplog.files :=
  ⟨h.gapless, h.durable.clean.torn, h.durable.clean.sound⟩

/-- Both programs read the latest checkpoint, and find the number of the next file. -/
theorem restore (h : Backed logdir lines s₀ b) (minReplicas : ℤ) : ∃ r k R,
    restoreFrom minReplicas logdir b.server.oplog.files b.cp = some r ∧ r.number = (k : ℕ) ∧ 0 ≤ r.seqno ∧
      k ≤ b.server.oplog.closed.length ∧ Replayed s₀ (recordsIn (b.server.oplog.files.take k)) R ∧
      Resembles R r.fs := by
  obtain ⟨c, k, R, hcp, hread, hhigh, hname, hk, hR, hT⟩ := h.cp
  obtain ⟨r, hr, hres, hseq, hlog⟩ := hR.reload minReplicas hT hread hhigh
  have hopen : openlog logdir b.server.oplog.files r.log = some (k : ℤ) := by
    rw [hlog, hname]
    have hlt : k < b.server.oplog.files.length := by
      rw [Oplog.files, List.length_append]
      exact Nat.lt_succ_of_le hk
    have hfind := h.gapless.find hlt
    have hnumber := List.find?_some hfind
    exact openlog_logfile ⟨_, List.mem_of_find?_eq_some hfind, of_decide_eq_true hnumber⟩
  refine ⟨⟨r.fs, k, r.seqno⟩, k, R, ?_, rfl, hseq ▸ hhigh, hk, ?_, hres⟩
  · rw [restoreFrom, hcp, hr]
    dsimp only
    rw [hopen]
    rfl
  · rw [Oplog.files, List.take_append_of_le_length hk]
    exact hR

/-- What is in the log files is the log of a run. -/
theorem logged (h : Backed logdir lines s₀ b) (hnone : records lines = []) : ∃ s es,
    (b.server.oplog.done.length, s) ∈ b.server.past ∧ Run SoundStep s₀ es s (recordsIn b.server.oplog.files) := by
  obtain ⟨s, es, hmem, hr⟩ := h.durable.past _ h.durable.done_le
  rw [← h.durable.records_eq hnone] at hr
  exact ⟨s, es, hmem, hr⟩

/-- A step of the threads. -/
theorem server {ev : MetaServerEv} {w : MetaServer} (h₀ : Founded s₀) (h : Backed logdir lines s₀ b)
    (hev : ev.FineBy SoundStep b.server) (hstep : b.server.step ev = some w) :
    Backed logdir lines s₀ { b with server := w } := by
  have hD := h.durable.step (fun _ _ hs => hs.toNamedStep) h₀.numbered hev hstep
  have hrolls : b.server.oplog.Rolls w.oplog := by
    rcases MetaServer.step_oplog hstep with heq | ⟨ev', hstep'⟩
    · exact Or.inl ⟨by rw [heq], by rw [heq]⟩
    · exact Oplog.step_rolls hstep'
  obtain ⟨hgap, hlast⟩ := gaplessly_concat.1 h.gapless
  obtain ⟨c, k, R, hcp, hread, hhigh, hname, hk, hR, hT⟩ := h.cp
  rcases hrolls with ⟨hclosed, hnumber⟩ | ⟨f, hclosed, hf, hnumber⟩
  · refine ⟨hD, ?_, c, k, R, hcp, hread, hhigh, hname, ?_, ?_, hT⟩
    · exact gaplessly_concat.2 ⟨hclosed ▸ hgap, by rw [hnumber, hlast, hclosed]⟩
    · exact hclosed ▸ hk
    · exact hclosed ▸ hR
  · refine ⟨hD, ?_, c, k, R, hcp, hread, hhigh, hname, ?_, ?_, hT⟩
    · refine gaplessly_concat.2 ⟨?_, ?_⟩
      · rw [hclosed]
        exact gaplessly_concat.2 ⟨hgap, hf.trans hlast⟩
      · rw [hnumber, hlast, hclosed, List.length_append, List.length_singleton]
    · rw [hclosed, List.length_append]
      exact hk.trans (Nat.le_add_right _ _)
    · rw [hclosed, List.take_append_of_le_length hk]
      exact hR

/-- A run of the compactor. -/
theorem compact (h₀ : Founded s₀) (h : Backed logdir lines s₀ b) (hnone : records lines = []) {now : Timeval}
    {stamp : Str} (hev : ∀ c ∈ b.compaction logdir now stamp, c.Readable) :
    Backed logdir lines s₀ { b with cp := ((b.compaction logdir now stamp).map Checkpoint.text).getD b.cp } := by
  cases hc : b.compaction logdir now stamp with
  | none => exact h
  | some c =>
    have hread := hev c hc
    refine ⟨h.durable, h.gapless, ?_⟩
    obtain ⟨r, k, R, hr, hnumber, hseq, hk, hR, hT⟩ := h.restore 1
    obtain ⟨s, es, -, hrun⟩ := h.logged hnone
    obtain ⟨hgap, -⟩ := gaplessly_concat.1 h.gapless
    rw [Installation.compaction, compactor, hr, Option.bind_some] at hc
    obtain ⟨lastlog, hscan, hc⟩ := Option.bind_eq_some_iff.1 hc
    obtain ⟨lastino, hlast, hscan⟩ := Option.bind_eq_some_iff.1 hscan
    obtain rfl := scanTo_some hscan
    -- the last file that is closed
    obtain ⟨f, hf, hfn⟩ := Option.map_eq_some_iff.1 hlast
    have hlen : lastlog + 1 = b.server.oplog.closed.length := by
      obtain ⟨fs, hfs⟩ := List.getLast?_eq_some_iff.1 hf
      rw [hfs] at hgap ⊢
      rw [← hfn, (gaplessly_concat.1 hgap).2, List.length_append, List.length_singleton]
    split_ifs at hc
    rw [hnumber, Int.toNat_natCast, hlen] at hc
    have htake : b.server.oplog.files.take b.server.oplog.closed.length = b.server.oplog.closed := by
      rw [Oplog.files, List.take_left]
    have hidle : ∀ c, (Env.mk now fun _ => false).leased c = false := fun _ => rfl
    obtain ⟨T', R', hplay, hR', hT'⟩ := playFiles_alike h₀ h.whole hrun hidle hk
      (by rw [Oplog.files, List.length_append]; exact Nat.le_add_right _ _) hR hT
    dsimp only at hc
    rw [hplay] at hc
    cases hc
    refine ⟨_, b.server.oplog.closed.length, R', rfl, hread, ?_, rfl, le_rfl, ?_, hT'⟩
    · exact add_nonneg hseq (Int.natCast_nonneg _)
    · rw [List.take_length, ← htake]
      exact hR'

theorem step {ev : InstallationEv} (h₀ : Founded s₀) (h : Backed logdir lines s₀ b) (hnone : records lines = [])
    (hev : b.Fine logdir ev) (hstep : b.step logdir ev = some b') : Backed logdir lines s₀ b' := by
  cases ev with
  | server ev =>
    rw [Installation.step] at hstep
    obtain ⟨w, hw, rfl⟩ := Option.map_eq_some_iff.1 hstep
    exact h.server h₀ hev hw
  | compact now stamp =>
    cases hstep
    exact h.compact h₀ hnone hev

theorem run (h₀ : Founded s₀) (hnone : records lines = []) : ∀ {evs : List InstallationEv} {b b' : Installation},
    Backed logdir lines s₀ b → b.FineRun logdir evs → b.run logdir evs = some b' → Backed logdir lines s₀ b'
  | [], _, _, h, _, hrun => by
    cases hrun
    exact h
  | ev :: evs, b, b', h, hfine, hrun => by
    rw [Installation.run] at hrun
    obtain ⟨b₁, hstep, hrun⟩ := Option.bind_eq_some_iff.1 hrun
    exact (h.step h₀ hnone hfine.1 hstep).run h₀ hnone (hfine.2 b₁ hstep) hrun

theorem start {stamp opened : Str} (h₀ : Founded s₀) (hopened : (LogLine.time opened).Sound)
    (hcp : (Installation.initialCP logdir s₀ stamp).Readable) :
    Backed logdir [.version, .time opened] s₀ (.start logdir s₀ stamp opened) := by
  have hlines : ∀ e ∈ [LogLine.version, .time opened], e.Sound := by
    intro e he
    rcases List.mem_pair.1 he with rfl | rfl
    · exact Oplog.version_sound
    · exact hopened
  obtain ⟨R, hR, -⟩ := (Run.nil : Run SoundStep s₀ [] s₀ []).replayed h₀
  have hred := hR.redo
  cases hred
  have hord := h₀.numbered.ordered
  refine ⟨.start hlines, rfl, _, 0, _, rfl, hcp, le_rfl, rfl, le_rfl, hR, ⟨.refl _, hord, hord⟩, rfl, rfl, rfl⟩

end Backed

/-- **Compactions lose nothing.** After any steps of the threads and any runs of the log compactor between them, the
latest checkpoint and the log files lead to a tree with the items of a state in which the answered requests, and no
request without its predecessors, have been served; its seeds are those of that state, or past its chunks. -/
theorem compaction_recovers {stamp opened : Str} {evs : List InstallationEv} {b : Installation} (h₀ : Fresh s₀)
    (hopened : (LogLine.time opened).Sound) (hcp : (Installation.initialCP logdir s₀ stamp).Readable)
    (hfine : (Installation.start logdir s₀ stamp opened).FineRun logdir evs)
    (hrun : (Installation.start logdir s₀ stamp opened).run logdir evs = some b) (now : Timeval) (minReplicas : ℤ) :
    ∃ n s T, (n, s) ∈ b.server.past ∧ b.server.oplog.answered.length ≤ n ∧
      kfsStartup ⟨now, fun _ => false⟩ minReplicas logdir b.server.oplog.files b.cp = some T ∧
      Alike s.fs.leaves T.leaves ∧ T.fileID = s.fs.fileID ∧
      ∀ c, .chunkinfo c ∈ s.fs.leaves → c.chunkId ≤ T.chunkID := by
  have hf := h₀.founded
  have h := (Backed.start hf hopened hcp).run hf rfl hfine hrun
  obtain ⟨s, es, hmem, hr⟩ := h.logged rfl
  obtain ⟨r, k, R, hrestore, hnumber, -, hk, hR, hT⟩ := h.restore minReplicas
  have hidle : ∀ c, (Env.mk now fun _ => false).leased c = false := fun _ => rfl
  have hlen : b.server.oplog.files.length = b.server.oplog.closed.length + 1 := List.length_append
  obtain ⟨T, R', hplay, hR', hT'⟩ := playFiles_alike hf h.whole hr hidle (hk.trans (by omega)) le_rfl hR hT
  obtain ⟨R'', hR'', hF⟩ := hr.replayed hf
  rw [List.take_length] at hR'
  obtain rfl : R'' = R' := by
    have hsame := hR''.redo
    rw [hR'.redo] at hsame
    cases hsame
    rfl
  refine ⟨_, s, T, hmem, b.server.oplog.answered_le, ?_, hF.twin.alike.trans hT'.leaves,
    hT'.fileID.trans hF.fileID, fun c hc => ?_⟩
  · have hplayed : (playAllLogs (numbers b.server.oplog.files) r.number).replayed =
        List.range' k (b.server.oplog.files.length - k) := by
      rw [hnumber, h.gapless.numbers, playAllLogs_range]
    rw [kfsStartup, hrestore, Option.bind_some, hplayed, hplay]
  · rw [hT'.chunkID]
    exact hF.chunkID c hc

/-- A request that is served and answered, and a turn of the log. -/
def servedEvs (req : Req) : List InstallationEv :=
  let io : LogIO := ⟨none, true, true, ['1'], ['2']⟩
  [.server (.serve (idle req)), .server (.other .take), .server (.other (.log io)), .server (.other .pass),
    .server (.other .answer)]

def rolledEvs : List InstallationEv :=
  let io : LogIO := ⟨none, true, true, ['1'], ['2']⟩
  [.server (.other .alarm), .server (.other .rollover), .server (.other .take), .server (.other (.log io)),
    .server (.other .pass), .server (.other .rolled)]

/-- Two files are compacted, and the server stops in the third one. -/
def compactedEvs : List InstallationEv :=
  servedEvs (.mkdir ROOTFID ['d']) ++ rolledEvs ++ servedEvs (.create 4 ['f'] 1 true) ++ rolledEvs ++
    [.compact ⟨5, 0⟩ ['3']] ++ servedEvs (.rename 4 ['f'] ['g'] false)

def freshSys : Option Sys :=
  (newTree idleEnv).bind fun fs =>
    (handle false idleEnv (changeIncarnationNumber ⟨fs, []⟩).sys .emptyDumpsterDir).map Out.sys

theorem freshSys_fresh (h : freshSys = some s₀) : Fresh s₀ := by
  obtain ⟨fs, htree, h⟩ := Option.bind_eq_some_iff.1 h
  obtain ⟨o, ho, rfl⟩ := Option.map_eq_some_iff.1 h
  exact ⟨idleEnv, fs, o, htree, ho, rfl⟩

theorem compactedEvs_recover : ∃ s₀ b n s T, Fresh s₀ ∧
    (Installation.start [] s₀ ['0'] ['1']).run [] compactedEvs = some b ∧ b.server.oplog.answered.length = 3 ∧
    (n, s) ∈ b.server.past ∧ b.server.oplog.answered.length ≤ n ∧
    kfsStartup idleEnv 1 [] b.server.oplog.files b.cp = some T ∧ Alike s.fs.leaves T.leaves := by
  have hx : (freshSys.map fun s₀ => decide ((Installation.initialCP [] s₀ ['0']).Readable ∧
      (Installation.start [] s₀ ['0'] ['1']).FineRun [] compactedEvs ∧
      ((Installation.start [] s₀ ['0'] ['1']).run [] compactedEvs).map (fun b => b.server.oplog.answered.length) =
        some 3)) = some true := by decide +kernel
  obtain ⟨s₀, hs₀, hx⟩ := Option.map_eq_some_iff.1 hx
  obtain ⟨hcp, hfine, hlen⟩ := of_decide_eq_true hx
  obtain ⟨b, hrun, hlen⟩ := Option.map_eq_some_iff.1 hlen
  have hfresh := freshSys_fresh hs₀
  obtain ⟨n, s, T, hmem, hle, hrec, ha, -⟩ :=
    compaction_recovers hfresh (by decide +kernel) hcp hfine hrun idleEnv.now 1
  exact ⟨s₀, b, n, s, T, hfresh, hrun, hlen, hmem, hle, hrec, ha⟩

end Kfs
