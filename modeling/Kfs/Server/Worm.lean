import Kfs.Server.Spare

/-!
# WORM mode

In WORM mode a file whose name does not end in ".tmp" is to keep its entry, its id and its chunks.

* `Finished`: the files that are to be kept;
* `takesFinished`: a removal of a name can reach such a file, under the name or through the dumpster;
* `wormUnsafe`: the requests that the checks of the handlers let through although they do;
* `handle_kept`, **`worm_keeps`**.
-/

namespace Kfs

variable {env : Env} {fs fs' : Fs} {s : Sys} {o : Out} {l l' : List Meta} {dir fid st : ℤ} {name : Str}
  {d : MetaDentry}

/-! ## Finished files -/

/-- The names of files that may still be changed. -/
def isTmp (name : Str) : Bool := decide (".tmp".toList <:+ name)

/-- A file under a name that does not end in ".tmp". -/
structure Finished (l : List Meta) (d : MetaDentry) : Prop extends FileEntry l d where
  name : isTmp d.name = false

theorem Kept.finished (h : Kept l l' d) (hd : Finished l d) : Finished l' d := ⟨h.entry, hd.name⟩

/-! ## Removing -/

/-- The next name for `name` in the dumpster is that of a file. -/
def dumpsterTaken (fs : Fs) (name : Str) : Bool :=
  match lookup fs.leaves ROOTFID DUMPSTERDIR with
  | some (some dumpster) =>
    match lookup fs.leaves dumpster.id (name ++ (toString fs.counter).toList) with
    | some (some fa) => decide (fa.type = .file)
    | _ => false
  | _ => false

/-- A removal of `name` takes a finished file away: the file of that name, or one in the dumpster under
the name that the file of that name is moved to. -/
def takesFinished (env : Env) (fs : Fs) (dir : ℤ) (name : Str) : Bool :=
  match lookup fs.leaves dir name with
  | some (some fa) => decide (fa.type = .file) &&
      (!isTmp name || (busy env fs.leaves fa && dumpsterTaken fs name))
  | _ => false

theorem takesFinished_eq_false {fa : MetaFattr} (hl : lookup fs.leaves dir name = some (some fa))
    (ht : fa.type = .file) (h : takesFinished env fs dir name = false) :
    isTmp name = true ∧ (busy env fs.leaves fa = true → dumpsterTaken fs name = false) := by
  simp only [takesFinished, hl, ht, decide_true, Bool.true_and, Bool.or_eq_false_iff,
    Bool.not_eq_eq_eq_not, Bool.not_false, Bool.and_eq_false_iff] at h
  refine ⟨h.1, fun hb => ?_⟩
  rcases h.2 with hc | hc
  · rw [hb] at hc
    exact absurd hc.symm Bool.false_ne_true
  · exact hc

theorem Finished.spared (h : Hierarchy fs.leaves) (hd : Finished fs.leaves d) {fa : MetaFattr}
    (hl : lookup fs.leaves dir name = some (some fa)) (ht : fa.type = .file)
    (hs : takesFinished env fs dir name = false) : Spared env fs dir name d := by
  obtain ⟨htmp, hfree⟩ := takesFinished_eq_false hl ht hs
  refine ⟨fun hc => ?_, fun fa' hl' hb du hdu _ hc => ?_⟩
  · have hname := hd.name
    rw [hc.2, htmp] at hname
    exact Bool.false_ne_true hname.symm
  -- the file under the name in the dumpster would be `d`
  · obtain rfl : fa = fa' := by simpa using hl.symm.trans hl'
    obtain ⟨f, hf, hfi, hft⟩ := hd.file
    have hlk : lookup fs.leaves du.id (name ++ (toString fs.counter).toList) = some (some f) := by
      refine h.lookup_iff.mpr ⟨?_, hf⟩
      rw [hfi, ← hc.1, ← hc.2]
      exact hd.mem
    have := hfree hb
    simp only [dumpsterTaken, hdu, hlk, hft, decide_true] at this
    exact Bool.false_ne_true this.symm

theorem remove_kept (htidy : Tidy fs) (h : Hierarchy fs.leaves) (hd : Finished fs.leaves d)
    (hs : takesFinished env fs dir name = false) (hr : remove env fs dir name = some (st, fs')) :
    Kept fs.leaves fs'.leaves d := by
  rcases removeF_spec hr with ⟨-, rfl⟩ | ⟨fa, hl, ht, -⟩
  · exact hd.kept
  · exact removeF_kept env 2 htidy h hd.toFileEntry (hd.spared h hl ht hs) hr

/-! ## Creating -/

theorem create_kept (htidy : Tidy fs) (h : Hierarchy fs.leaves) {n id : ℤ} {exclusive : Bool}
    (hd : Finished fs.leaves d)
    (hs : exclusive = false → 0 < n → takesFinished env fs dir name = false)
    (hc : create env fs dir name 0 n exclusive = some (st, id, fs')) : Kept fs.leaves fs'.leaves d := by
  rcases create_spec hc with ⟨-, rfl⟩ | ⟨-, hn, fa, hl, hf, st₁, fs₁, hr, hcase⟩
  · exact hd.kept
  have hk₁ : Kept fs.leaves fs₁.leaves d := by
    unfold removeOld at hr
    rcases fa with - | fa
    · obtain ⟨-, rfl⟩ : 0 = st₁ ∧ fs = fs₁ := by simpa using hr
      exact hd.kept
    · exact remove_kept htidy h hd (hs (hf fa rfl).2 hn) hr
  rcases hcase with ⟨-, -, rfl⟩ | ⟨-, -, rfl, l', hlk, rfl⟩
  · exact hk₁
  · exact hk₁.trans (hk₁.entry.kept_of fun x hx _ => link_subset hlk hx)

/-! ## Chunks -/

theorem assignChunkId_kept (h : Hierarchy fs.leaves) {offset chunkId v : ℤ} (hd : FileEntry fs.leaves d)
    (hs : ∀ c, getChunk fs.leaves fid (chunkStartOffset offset) = some c → c.chunkVersion ≠ v → d.id ≠ fid)
    (ha : assignChunkId env fs fid offset chunkId v = (st, fs')) : Kept fs.leaves fs'.leaves d := by
  rcases assignChunkId_spec ha with
    ⟨-, -, rfl⟩ | ⟨fa, -, ⟨c, -, -, -, rfl⟩ | ⟨c, hc, hv, -, rfl⟩ | ⟨-, -, rfl⟩⟩
  · exact hd.kept
  · exact hd.kept
  · refine hd.update (similar_setChunk h.uniq.plain hc rfl rfl) fun e he hk => ?_
    obtain ⟨e', he', hei, -⟩ := (eqv_chunk _ fid _).mp hk
    obtain rfl := Meta.chunkinfo.inj he'
    rw [hei]
    exact (hs c hc hv).symm
  · have hi : Kept fs.leaves (Leaves.insert fs.leaves (.chunkinfo ⟨fid, offset, chunkId, v⟩)) d :=
      hd.kept_of fun x hx _ => Leaves.mem_insert.mpr (Or.inr hx)
    refine hi.trans (hi.entry.update (similar_addChunk env _) fun c _ hk => ?_)
    obtain ⟨f, hf, -⟩ := (eqv_fattr _ fid).mp hk
    simp at hf

theorem changeFileReplication_kept (h : Hierarchy fs.leaves) {n : ℤ} (hd : FileEntry fs.leaves d)
    (hc : changeFileReplication fs fid n = (st, fs')) : Kept fs.leaves fs'.leaves d := by
  rcases changeFileReplication_cases hc with rfl | ⟨fa, hf, rfl⟩
  · exact hd.kept
  · exact hd.setFattr h hf rfl rfl

/-! ## Runs -/

/-- The file with the id `fid` has a name that does not end in ".tmp". -/
def finishedId (l : List Meta) (fid : ℤ) : Bool :=
  (dentries l).any fun d => decide (d.id = fid) && !isTmp d.name

/-- What the handlers let through in WORM mode although it takes a finished file away or changes one of its
chunks: a CREATE that overwrites, a REMOVE or RENAME of a name with ".tmp" in its middle, a RENAME over a
file that the check of the handler does not find, a removal that overwrites a file in the dumpster, and an
allocation that gives a chunk a new version. -/
def wormUnsafe (env : Env) (s : Sys) : Req → Bool
  | .create dir name n exclusive => !exclusive && decide (0 < n) && takesFinished env s.fs dir name
  | .remove dir name => isWormMutationAllowed name && takesFinished env s.fs dir name
  | .rename dir oldname newname overwrite =>
    match wormForbids true s.fs.leaves oldname newname,
        renameCheck s.fs.leaves dir oldname newname overwrite with
    | some false, some (.ok p) => decide (p.sfattr.type = .file) &&
        (!isTmp oldname || (p.dexists && takesFinished env s.fs p.ddir p.dname))
    | _, _ => false
  | .layoutDone i true =>
    match s.pending[i]? with
    | some a =>
      match getChunk s.fs.leaves a.fid (chunkStartOffset a.offset) with
      | some c => decide (c.chunkVersion ≠ a.chunkVersion) && finishedId s.fs.leaves a.fid
      | none => false
    | none => false
  | _ => false

/-- A client request, or the completion of one, in WORM mode. -/
def WormRequest (_ : Sys) (e : Event) : Prop := e.worm = true ∧ e.req.isCleanup = false

instance (s : Sys) (e : Event) : Decidable (WormRequest s e) := by unfold WormRequest; infer_instance

/-- The requests in WORM mode that keep the finished files. -/
def WormSafe (s : Sys) (e : Event) : Prop :=
  WormRequest s e ∧ Regular s e ∧ wormUnsafe e.env s e.req = false

instance (s : Sys) (e : Event) : Decidable (WormSafe s e) := by unfold WormSafe; infer_instance

theorem rename_kept (h : Intact s) (hd : Finished s.fs.leaves d) {oldname newname : Str} {overwrite : Bool}
    (hw : wormForbids true s.fs.leaves oldname newname = some false)
    (hs : wormUnsafe env s (.rename dir oldname newname overwrite) = false)
    (hr : rename env s.fs dir oldname newname overwrite = some (st, fs')) :
    Kept s.fs.leaves fs'.leaves d := by
  have hsafe : ∀ p : RenamePlan, p.Checked s.fs.leaves dir oldname newname overwrite →
      p.sfattr.type = .file → isTmp oldname = true ∧
        (p.dexists = true → takesFinished env s.fs p.ddir p.dname = false) := by
    intro p hp hty
    simp only [wormUnsafe, hw, renameCheck_iff.mpr hp, hty, decide_true, Bool.true_and,
      Bool.or_eq_false_iff, Bool.not_eq_eq_eq_not, Bool.not_false] at hs
    refine ⟨hs.1, fun hex => ?_⟩
    rw [hex, Bool.true_and] at hs
    exact hs.2
  refine renameWith_kept (removeF_moves env 2) (removeF_atomic env 2) h.tidy h.hier hd.toFileEntry
    (fun p hp hc => ?_)
    (fun p fs₁ hp hty hex hrm => remove_kept h.tidy h.hier hd ((hsafe p hp hty).2 hex) hrm) hr
  obtain ⟨-, -, hsn, hfm, hsi⟩ := hp.mem h.hier
  obtain ⟨f, hf, hfi, hft⟩ := hd.file
  have hty : p.sfattr.type = .file := by
    rw [h.hier.uniq.eq_of_id hfm hf (hsi.symm.trans ((congrArg MetaDentry.id hc).trans hfi.symm)), hft]
  have hname := hd.name
  rw [← hc, hsn, (hsafe p hp hty).1] at hname
  exact Bool.false_ne_true hname.symm

/-- **One step in WORM mode keeps the finished files.** -/
theorem handle_kept {e : Event} (h : Intact s) (hd : Finished s.fs.leaves d) (hs : WormSafe s e)
    (ho : handle e.worm e.env s e.req = some o) : Kept s.fs.leaves o.sys.fs.leaves d := by
  obtain ⟨worm, env, req⟩ := e
  obtain ⟨⟨hworm, hclean⟩, -, hsafe⟩ := hs
  obtain rfl : worm = true := hworm
  dsimp only at hclean hsafe ho
  cases req with
  | create dir name n exclusive =>
    cases handle_cases ho with
    | refused _ => exact hd.kept
    | create hdir hc =>
      refine create_kept h.tidy h.hier hd (fun hex hn => ?_) hc
      simpa [wormUnsafe, hex, hn] using hsafe
  | mkdir dir name =>
    cases handle_cases ho with
    | refused _ => exact hd.kept
    | mkdir hdir hm => exact mkdir_kept hd.toFileEntry hm
  | remove dir name =>
    by_cases hw : isWormMutationAllowed name = true
    · rw [wormUnsafe, hw, Bool.true_and] at hsafe
      cases handle_cases ho with
      | refused _ => exact hd.kept
      | remove hr => exact remove_kept h.tidy h.hier hd hsafe hr
    · obtain rfl : refuse s (-EPERM) = o := by simpa [handle, hw] using ho
      exact hd.kept
  | rmdir dir name =>
    cases handle_cases ho with
    | refused _ => exact hd.kept
    | rmdir hr => exact rmdir_kept h.hier hd.toFileEntry hr
  | rename dir oldname newname overwrite =>
    rcases hw : wormForbids true s.fs.leaves oldname newname with - | - | -
    · simp [handle, hw] at ho
    · cases handle_cases ho with
      | refused _ => exact hd.kept
      | rename hr => exact rename_kept h hd hw hsafe hr
    · obtain rfl : refuse s (-EPERM) = o := by simpa [handle, hw] using ho
      exact hd.kept
  | allocate fid offset reply placed =>
    rw [startAllocate_leaves ho]
    exact hd.kept
  | layoutDone i ok =>
    cases handle_cases ho with
    | refused _ => exact hd.kept
    | assigned hp ha =>
      refine assignChunkId_kept h.hier hd.toFileEntry (fun c hc hv hid => ?_) ha
      simp only [wormUnsafe, hp, hc, hv, decide_not, decide_false, Bool.not_false, Bool.true_and,
        finishedId, List.any_eq_false] at hsafe
      exact hsafe d (mem_dentries.mpr hd.mem) (by simp [hid, hd.name])
    | layoutFailed hp =>
      rw [changeIncarnationNumber_leaves]
      exact hd.kept
  | truncate fid offset reply placed =>
    obtain rfl : refuse s (-EPERM) = o := by simpa [handle] using ho
    exact hd.kept
  | changeFileReplication fid n =>
    cases handle_cases ho with
    | refused _ => exact hd.kept
    | changeFileReplication hc => exact changeFileReplication_kept h.hier hd.toFileEntry hc
  | changeIncarnationNumber =>
    cases handle_cases ho with
    | refused _ => exact hd.kept
    | changeIncarnationNumber =>
      rw [changeIncarnationNumber_leaves]
      exact hd.kept
  | cleanupDumpster => exact absurd hclean.symm Bool.false_ne_true
  | emptyDumpsterDir => exact absurd hclean.symm Bool.false_ne_true

/-- **In WORM mode the finished files are kept**: in every run of safe requests in WORM mode, from every
state that the server reaches without a MKDIR of the root's name elsewhere and without a RENAME of a dot
entry. -/
theorem worm_keeps {es₀ es : List Event} {s₀ : Sys} {log₀ log : List LogRec} (h₀ : newTree env = some fs)
    (hr₀ : Run Regular ⟨fs, []⟩ es₀ s₀ log₀) (hr : Run WormSafe s₀ es s log)
    (hd : Finished s₀.fs.leaves d) : Kept s₀.fs.leaves s.fs.leaves d := by
  have hint₀ : Intact s₀ := hr₀.invariant (newTree_intact h₀) fun _ _ _ h hc ho => handle_intact h hc ho
  have := hr.invariant (P := fun s => Intact s ∧ Kept s₀.fs.leaves s.fs.leaves d) ⟨hint₀, hd.kept⟩
    fun s e o h hc ho => ⟨handle_intact h.1 hc.2.1 ho, h.2.trans (handle_kept h.1 (h.2.finished hd) hc ho)⟩
  exact this.2

/-- Whether there is a finished file with the entry `d`. -/
def hasFinished (l : List Meta) (d : MetaDentry) : Bool :=
  decide (.dentry d ∈ l) && ((fattrs l).any fun f => decide (f.id = d.id ∧ f.type = .file)) && !isTmp d.name

theorem hasFinished_iff : hasFinished l d = true ↔ Finished l d := by
  simp only [hasFinished, Bool.and_eq_true, decide_eq_true_eq, List.any_eq_true, mem_fattrs,
    Bool.not_eq_eq_eq_not, Bool.not_true]
  exact ⟨fun h => ⟨⟨h.1.1, h.1.2⟩, h.2⟩, fun h => ⟨⟨h.mem, h.file⟩, h.name⟩⟩

def worm (req : Req) : Event := ⟨true, idleEnv, req⟩

/-- A file with one chunk is written under a temporary name, and renamed. -/
def writeOnce : List Event :=
  [worm (.create ROOTFID "a.tmp".toList 1 false), worm (.allocate 3 0 .valid true), worm (.layoutDone 0 true),
    worm (.rename ROOTFID "a.tmp".toList ['a'] false)]

/-- Attempts to change the file, and another file that is written and removed. -/
def readMany : List Event :=
  [worm (.remove ROOTFID ['a']), worm (.create ROOTFID ['a'] 1 true), worm (.truncate 3 0 .valid true),
    worm (.create ROOTFID "b.tmp".toList 1 false), worm (.rename ROOTFID "b.tmp".toList ['a'] true),
    worm (.remove ROOTFID "b.tmp".toList)]

theorem writeOnce_kept : ∃ s₀ log₀ s log, exec Regular rootSys writeOnce = some (s₀, log₀) ∧
    exec WormSafe s₀ readMany = some (s, log) ∧ Finished s₀.fs.leaves ⟨ROOTFID, ['a'], 3⟩ ∧
    .chunkinfo ⟨3, 0, 3, 0⟩ ∈ s₀.fs.leaves ∧ Kept s₀.fs.leaves s.fs.leaves ⟨ROOTFID, ['a'], 3⟩ := by
  have hx : ((exec Regular rootSys writeOnce).bind fun r => (exec WormSafe r.1 readMany).map fun _ =>
      hasFinished r.1.fs.leaves ⟨ROOTFID, ['a'], 3⟩ && decide (.chunkinfo ⟨3, 0, 3, 0⟩ ∈ r.1.fs.leaves)) =
      some true := by decide +kernel
  obtain ⟨⟨s₀, log₀⟩, hx₀, hx⟩ := Option.bind_eq_some_iff.mp hx
  obtain ⟨⟨s, log⟩, hx, hf⟩ := Option.map_eq_some_iff.mp hx
  rw [Bool.and_eq_true, hasFinished_iff, decide_eq_true_eq] at hf
  exact ⟨s₀, log₀, s, log, hx₀, hx, hf.1, hf.2,
    worm_keeps (newTree_eq idleEnv) (Run.of_exec hx₀) (Run.of_exec hx) hf.1⟩

/-- A CREATE in WORM mode over the file replaces it: the entry of that name has another id, and the chunk is
gone. -/
theorem create_not_kept : ∃ s₀ log₀ s log, exec Regular rootSys writeOnce = some (s₀, log₀) ∧
    exec WormRequest s₀ [worm (.create ROOTFID ['a'] 1 false)] = some (s, log) ∧
    Finished s₀.fs.leaves ⟨ROOTFID, ['a'], 3⟩ ∧ ¬ Kept s₀.fs.leaves s.fs.leaves ⟨ROOTFID, ['a'], 3⟩ := by
  have hx : ((exec Regular rootSys writeOnce).bind fun r =>
      (exec WormRequest r.1 [worm (.create ROOTFID ['a'] 1 false)]).map fun r' =>
        hasFinished r.1.fs.leaves ⟨ROOTFID, ['a'], 3⟩ &&
          !decide (.dentry ⟨ROOTFID, ['a'], 3⟩ ∈ r'.1.fs.leaves)) = some true := by decide +kernel
  obtain ⟨⟨s₀, log₀⟩, hx₀, hx⟩ := Option.bind_eq_some_iff.mp hx
  obtain ⟨⟨s, log⟩, hx, hf⟩ := Option.map_eq_some_iff.mp hx
  simp only [Bool.and_eq_true, hasFinished_iff, Bool.not_eq_eq_eq_not, Bool.not_true,
    decide_eq_false_iff_not] at hf
  exact ⟨s₀, log₀, s, log, hx₀, hx, hf.1, fun hk => hf.2 hk.mem⟩

end Kfs
