import Kfs.Server.Dumpster
import Kfs.Server.Worm

/-!
# The dumpster over runs of requests

* `dumpsterUnsafe`: the requests that take the dumpster away, take a busy file out of it, or replace a file in it;
* `handle_dumpster`, `handle_stays`, `handle_diverted`: one step keeps the directory and the busy files in it, and
  moves a busy file there without loss of another;
* **`dumpster_safe`**.
-/

namespace Kfs

variable {env : Env} {fs fs' : Fs} {s : Sys} {o : Out} {l l' : List Meta} {dir fid st D : ℤ} {name : Str}
  {d : MetaDentry}

/-! ## Steps -/

/-- A removal of the busy file of this name takes the place of a file in the dumpster that is not busy. -/
def replaces (env : Env) (fs : Fs) (dir : ℤ) (name : Str) : Bool :=
  match lookup fs.leaves ROOTFID DUMPSTERDIR, lookup fs.leaves dir name with
  | some (some du), some (some fa) => decide (du.id ≠ dir) && decide (fa.type = .file) &&
      busy env fs.leaves fa &&
      match lookup fs.leaves du.id (name ++ (toString fs.counter).toList) with
      | some (some g) => decide (g.type = .file) && !busy env fs.leaves g
      | _ => false
  | _, _ => false

/-- A renaming takes a busy file out of the dumpster. -/
def takesOut (env : Env) (l : List Meta) (p : RenamePlan) : Bool :=
  match lookup l ROOTFID DUMPSTERDIR with
  | some (some du) => decide (p.src.dir = du.id ∧ p.ddir ≠ du.id ∧ p.sfattr.type = .file) && busy env l p.sfattr
  | _ => false

/-- The requests that take the dumpster away, take a busy file out of it, or replace a file in it that is not
busy by another. -/
def dumpsterUnsafe (worm : Bool) (env : Env) (s : Sys) : Req → Bool
  | .create dir name n exclusive => !exclusive && decide (0 < n) && replaces env s.fs dir name
  | .remove dir name => (!worm || isWormMutationAllowed name) && replaces env s.fs dir name
  | .rename dir oldname newname overwrite =>
    match wormForbids worm s.fs.leaves oldname newname,
        renameCheck s.fs.leaves dir oldname newname overwrite with
    | some false, some (.ok p) => decide (p.src.dir = ROOTFID ∧ p.src.name = DUMPSTERDIR) ||
        takesOut env s.fs.leaves p ||
        (decide (p.sfattr.type = .file) && p.dexists && replaces env s.fs p.ddir p.dname)
    | _, _ => false
  | _ => false

/-- The steps that keep the directory tree and the dumpster. -/
def DumpsterSafe (s : Sys) (e : Event) : Prop :=
  Regular s e ∧ dumpsterUnsafe e.worm e.env s e.req = false

instance (s : Sys) (e : Event) : Decidable (DumpsterSafe s e) := by unfold DumpsterSafe; infer_instance

/-- The request changes the chunks of the file `fid`. -/
def Req.touches (s : Sys) (fid : ℤ) : Req → Bool
  | .truncate file _ _ _ => decide (file = fid)
  | .layoutDone i _ => s.pending[i]?.any fun a => decide (a.fid = fid)
  | _ => false

/-- The name that a request takes away from the file that has it. -/
def Req.doomed (l : List Meta) : Req → Option (ℤ × Str)
  | .create dir name _ _ => some (dir, name)
  | .remove dir name => some (dir, name)
  | .rename dir oldname newname overwrite =>
    match renameCheck l dir oldname newname overwrite with
    | some (.ok p) => if p.dexists then some (p.ddir, p.dname) else none
    | _ => none
  | _ => none

/-- The name that a RENAME changes. -/
def Req.source : Req → Option (ℤ × Str)
  | .rename dir oldname _ _ => some (dir, oldname)
  | _ => none

/-- The file in the dumpster whose place a busy file would take is busy itself. -/
theorem busy_of_not_replaces (h : Hierarchy fs.leaves) (hD : DumpsterAt fs.leaves D)
    (hr : replaces env fs dir name = false) (hd : FileEntry fs.leaves d) {fa : MetaFattr}
    (hl : lookup fs.leaves dir name = some (some fa)) (ht : fa.type = .file)
    (hb : busy env fs.leaves fa = true) (hne : dir ≠ D) (hdd : d.dir = D)
    (hdn : d.name = name ++ (toString fs.counter).toList) : Busy env fs.leaves d := by
  obtain ⟨du, hdump, rfl, -⟩ := hD.lookup h
  obtain ⟨f, hf, hfi, hft⟩ := hd.file
  have hlk : lookup fs.leaves du.id (name ++ (toString fs.counter).toList) = some (some f) := by
    refine h.lookup_iff.mpr ⟨?_, hf⟩
    rw [hfi, ← hdd, ← hdn]
    exact hd.mem
  refine ⟨hd.mem, f, hf, hfi, hft, ?_⟩
  simp only [replaces, hdump, hl, hlk, ht, hft, hb, ne_eq, hne.symm, not_false_eq_true, decide_true,
    Bool.true_and, Bool.not_eq_eq_eq_not, Bool.not_false] at hr
  exact hr

/-- A removal that replaces no file in the dumpster leaves the files of other names alone. -/
theorem remove_spares (htidy : Tidy fs) (h : Hierarchy fs.leaves) (hD : DumpsterAt fs.leaves D)
    (hrep : replaces env fs dir name = false) (hd : FileEntry fs.leaves d)
    (hne : ¬ (d.dir = dir ∧ d.name = name)) (hr : remove env fs dir name = some (st, fs')) :
    Kept fs.leaves fs'.leaves d := by
  exact remove_other htidy h hD hd hne (fun fa hl ht hb hdir hdd hdn =>
    busy_of_not_replaces h hD hrep hd hl ht hb hdir hdd hdn) hr

/-- What a RENAME that the handler lets through runs. -/
theorem handle_rename_cases {worm : Bool} {oldname newname : Str} {overwrite : Bool}
    (ho : handle worm env s (.rename dir oldname newname overwrite) = some o) :
    o = refuse s (-EPERM) ∨ (wormForbids worm s.fs.leaves oldname newname = some false ∧
      ∃ st fs', rename env s.fs dir oldname newname overwrite = some (st, fs') ∧
        o = done s st fs' (.rename dir oldname newname)) := by
  rcases hw : wormForbids worm s.fs.leaves oldname newname with - | - | -
  · simp [handle, hw] at ho
  · simp only [handle, hw, Option.map_eq_some_iff, Prod.exists] at ho
    obtain ⟨st, fs', hr, rfl⟩ := ho
    exact Or.inr ⟨rfl, st, fs', hr, rfl⟩
  · simp only [handle, hw, Option.some.injEq] at ho
    exact Or.inl ho.symm

/-- What a REMOVE that the handler lets through runs. -/
theorem handle_remove_cases {worm : Bool} (ho : handle worm env s (.remove dir name) = some o) :
    o = refuse s (-EPERM) ∨ ((!worm || isWormMutationAllowed name) = true ∧
      ∃ st fs', remove env s.fs dir name = some (st, fs') ∧ o = done s st fs' (.remove dir name)) := by
  simp only [handle] at ho
  split_ifs at ho with hw
  · exact Or.inl (Option.some.inj ho).symm
  · simp only [Option.map_eq_some_iff, Prod.exists] at ho
    obtain ⟨st, fs', hr, rfl⟩ := ho
    refine Or.inr ⟨?_, st, fs', hr, rfl⟩
    cases worm <;> simp_all

/-- What a safe RENAME does not do. -/
theorem rename_safe {worm : Bool} {oldname newname : Str} {overwrite : Bool} {p : RenamePlan}
    (h : Hierarchy s.fs.leaves) (hD : DumpsterAt s.fs.leaves D)
    (hw : wormForbids worm s.fs.leaves oldname newname = some false)
    (hs : dumpsterUnsafe worm env s (.rename dir oldname newname overwrite) = false)
    (hp : p.Checked s.fs.leaves dir oldname newname overwrite) :
    p.src ≠ ⟨ROOTFID, DUMPSTERDIR, D⟩ ∧ (p.src.dir = D → Busy env s.fs.leaves p.src → p.ddir = D) ∧
      (p.sfattr.type = .file → p.dexists = true → replaces env s.fs p.ddir p.dname = false) := by
  simp only [dumpsterUnsafe, hw, renameCheck_iff.mpr hp, Bool.or_eq_false_iff] at hs
  obtain ⟨⟨h₁, h₂⟩, h₃⟩ := hs
  rw [decide_eq_false_iff_not] at h₁
  refine ⟨fun hc => h₁ (by rw [hc]; exact ⟨rfl, rfl⟩), fun hdir hb => ?_, fun ht hex => ?_⟩
  · obtain ⟨du, hdump, rfl, -⟩ := hD.lookup h
    obtain ⟨fa, hl, -, ht, hbusy⟩ := hb.lookup h
    obtain ⟨-, hsd, hsn, -⟩ := hp.mem h
    rw [hsd, hsn, hp.found, Option.some_inj, Option.some_inj] at hl
    rw [takesOut, hdump] at h₂
    rw [← hl] at ht hbusy
    by_contra hne
    simp [hdir, hne, ht, hbusy] at h₂
  · simpa [ht, hex] using h₃

/-! ### The directory -/

theorem create_dumpster (htidy : Tidy fs) (h : Hierarchy fs.leaves) (hD : DumpsterAt fs.leaves D) {n id : ℤ}
    {exclusive : Bool} (hc : create env fs dir name 0 n exclusive = some (st, id, fs')) :
    DumpsterAt fs'.leaves D := by
  rcases create_spec hc with ⟨-, rfl⟩ | ⟨-, -, fa, -, -, st₁, fs₁, hr, hcase⟩
  · exact hD
  have hD₁ : DumpsterAt fs₁.leaves D := by
    unfold removeOld at hr
    split_ifs at hr
    · exact removeF_dumpster env 2 htidy h hD hr
    · obtain ⟨-, rfl⟩ : 0 = st₁ ∧ fs = fs₁ := by simpa using hr
      exact hD
  rcases hcase with ⟨-, -, rfl⟩ | ⟨-, -, -, l', hlk, rfl⟩
  · exact hD₁
  · exact hD₁.of_subset (link_subset hlk)

theorem mkdir_subset {dname : Str} {id : ℤ} (hm : mkdir env fs dir dname 0 = some (st, id, fs')) :
    fs.leaves ⊆ fs'.leaves := by
  rcases mkdir_spec hm with ⟨-, rfl⟩ | ⟨-, -, -, ⟨-, -, -, rfl⟩ | ⟨-, -, -, rfl⟩ | ⟨h0, -⟩⟩
  · exact List.Subset.refl _
  · exact mkdirAt_subset env _ dir dname _
  · exact mkdirAt_subset env fs dir dname _
  · exact absurd rfl h0

theorem cleanupDumpster_dumpster (htidy : Tidy fs) (h : Hierarchy fs.leaves) (hD : DumpsterAt fs.leaves D)
    (hc : cleanupDumpster env fs = some fs') : DumpsterAt fs'.leaves D := by
  have := cleanupDumpster_induct (P := fun fs => (Tidy fs ∧ Hierarchy fs.leaves) ∧ DumpsterAt fs.leaves D)
    (fun _ _ _ _ _ hi hr => ⟨⟨(removeF_tidy env 2 hi.1.1 hr).1, remove_hier hi.1.1 hi.1.2 hr⟩,
      removeF_dumpster env 2 hi.1.1 hi.1.2 hi.2 hr⟩) ⟨⟨htidy, h⟩, hD⟩ hc
  exact this.2

theorem emptyDumpsterDir_dumpster (htidy : Tidy fs) (h : Hierarchy fs.leaves) (hD : DumpsterAt fs.leaves D)
    (he : emptyDumpsterDir env fs = some fs') : DumpsterAt fs'.leaves D := by
  obtain ⟨st, id, fs₁, hm, htidy₁, h₁, hc⟩ := emptyDumpsterDir_cases htidy h he
  exact cleanupDumpster_dumpster htidy₁ h₁ (hD.of_subset (mkdir_subset hm)) hc

theorem assignChunkId_dumpster (hp : ∀ x ∈ fs.leaves, x.key.Plain) (hD : DumpsterAt fs.leaves D)
    {offset chunkId v : ℤ} (ha : assignChunkId env fs fid offset chunkId v = (st, fs')) :
    DumpsterAt fs'.leaves D := by
  rcases assignChunkId_spec ha with
    ⟨-, -, rfl⟩ | ⟨fa, -, ⟨c, -, -, -, rfl⟩ | ⟨c, hc, -, -, rfl⟩ | ⟨-, -, rfl⟩⟩
  · exact hD
  · exact hD
  · exact hD.update (similar_setChunk hp hc rfl rfl)
  · refine DumpsterAt.update (hD.of_subset fun x hx => ?_) (similar_addChunk env _)
    exact Leaves.mem_insert.mpr (Or.inr hx)

theorem truncate_dumpster (h : Hierarchy fs.leaves) (hD : DumpsterAt fs.leaves D) {offset a : ℤ}
    (ht : truncate env fs fid offset = some (st, a, fs')) : DumpsterAt fs'.leaves D := by
  rcases truncate_spec ht with ⟨-, rfl⟩ | ⟨fa, hf, -, -, ⟨-, -, -, rfl⟩ | ⟨-, -, l₁, hd, rfl⟩⟩
  · exact hD
  · exact hD.setFattr h hf rfl rfl
  · obtain ⟨hfm, hfi⟩ := getFattr_some hf
    have hm := (deleteChunks_mem hd).2
    have h₁ := h.deleteChunks hd
    obtain ⟨f, hfD, hfDi, hfDt⟩ := hD.dir
    have hD₁ : DumpsterAt l₁ D := ⟨(hm _ (by simp)).mpr hD.mem, f, (hm _ (by simp)).mpr hfD, hfDi, hfDt⟩
    exact hD₁.setFattr h₁ (f := fa) (h₁.uniq.getFattr_iff.mpr ⟨(hm _ (by simp)).mpr hfm, hfi⟩) rfl rfl

/-- **One step keeps the dumpster.** -/
theorem handle_dumpster {e : Event} (h : Intact s) (hD : DumpsterAt s.fs.leaves D) (hs : DumpsterSafe s e)
    (ho : handle e.worm e.env s e.req = some o) : DumpsterAt o.sys.fs.leaves D := by
  obtain ⟨worm, env, req⟩ := e
  obtain ⟨-, hsafe⟩ := hs
  cases hcase : handle_cases ho with
  | refused _ => exact hD
  | create _ hc => exact create_dumpster h.tidy h.hier hD hc
  | mkdir _ hm => exact hD.of_subset (mkdir_subset hm)
  | remove hr => exact removeF_dumpster env 2 h.tidy h.hier hD hr
  | rmdir hr => exact rmdir_dumpster h.hier hD hr
  | rename _ =>
    rcases handle_rename_cases ho with he | ⟨hw, st, fs', hr, he⟩
    · rw [he]
      exact hD
    · rw [he]
      exact renameWith_dumpster (removeF_dumpster env 2) (removeF_moves env 2) (removeF_atomic env 2) h.tidy
        h.hier hD (fun p hp => (rename_safe h.hier hD hw hsafe hp).1) hr
  | allocate ha =>
    rw [startAllocate_leaves ha]
    exact hD
  | assigned _ ha => exact assignChunkId_dumpster h.hier.uniq.plain hD ha
  | layoutFailed _ =>
    rw [changeIncarnationNumber_leaves]
    exact hD
  | truncate ht _ => exact truncate_dumpster h.hier hD ht
  | truncateAlloc ht _ ha =>
    have := startAllocate_leaves ha
    change DumpsterAt _ D
    rw [this]
    exact truncate_dumpster h.hier hD ht
  | changeFileReplication hc =>
    rcases changeFileReplication_cases hc with rfl | ⟨fa, hf, rfl⟩
    · exact hD
    · exact hD.setFattr h.hier hf rfl rfl
  | changeIncarnationNumber =>
    rw [changeIncarnationNumber_leaves]
    exact hD
  | cleanupDumpster hc => exact cleanupDumpster_dumpster h.tidy h.hier hD hc
  | emptyDumpsterDir he => exact emptyDumpsterDir_dumpster h.tidy h.hier hD he

/-! ### A busy file in the dumpster -/

theorem create_keeps_busy (htidy : Tidy fs) (h : Hierarchy fs.leaves) (hD : DumpsterAt fs.leaves D)
    (hb : Busy env fs.leaves d) (hdir : d.dir = D) {n id : ℤ} {exclusive : Bool}
    (hc : create env fs dir name 0 n exclusive = some (st, id, fs')) : Kept fs.leaves fs'.leaves d := by
  rcases create_spec hc with ⟨-, rfl⟩ | ⟨-, -, fa, -, -, st₁, fs₁, hr, hcase⟩
  · exact hb.entry.kept
  have hk₁ : Kept fs.leaves fs₁.leaves d := by
    unfold removeOld at hr
    split_ifs at hr
    · exact remove_keeps_busy htidy h hD hb hdir hr
    · obtain ⟨-, rfl⟩ : 0 = st₁ ∧ fs = fs₁ := by simpa using hr
      exact hb.entry.kept
  rcases hcase with ⟨-, -, rfl⟩ | ⟨-, -, -, l', hlk, rfl⟩
  · exact hk₁
  · exact hk₁.trans (hk₁.entry.kept_of fun x hx _ => link_subset hlk hx)

theorem rename_keeps_busy (htidy : Tidy fs) (h : Hierarchy fs.leaves) (hD : DumpsterAt fs.leaves D)
    (hb : Busy env fs.leaves d) (hdir : d.dir = D) {parent : ℤ} {oldname newname : Str} {overwrite : Bool}
    (hstay : ∀ p : RenamePlan, p.Checked fs.leaves parent oldname newname overwrite → p.src = d → p.ddir = D)
    (hr : rename env fs parent oldname newname overwrite = some (st, fs')) :
    Stays fs.leaves fs'.leaves D d.id := by
  have hdst : ∀ (p : RenamePlan) (fs₁ : Fs), p.Checked fs.leaves parent oldname newname overwrite →
      p.sfattr.type = .file → p.dexists = true → removeF 2 env fs p.ddir p.dname = some (0, fs₁) →
      Kept fs.leaves fs₁.leaves d := fun _ _ _ _ _ hrm => remove_keeps_busy htidy h hD hb hdir hrm
  by_cases hsrc : getDentry fs.leaves parent oldname = some (some d)
  swap
  · subst hdir
    have hk := renameWith_kept (removeF_moves env 2) (removeF_atomic env 2) htidy h hb.entry
      (fun p hp hc => hsrc (hc ▸ hp.src)) hdst hr
    exact hk.stays
  by_cases hst : st = 0
  swap
  · subst hdir
    rw [renameWith_atomic (removeF_atomic env 2) htidy hr hst]
    exact hb.entry.kept.stays
  rcases renameWith_spec hr with ⟨-, rfl⟩ | ⟨p, hp, ⟨h0, -⟩ | ⟨-, fs₁, l', hc, hl, rfl⟩⟩
  · subst hdir
    exact hb.entry.kept.stays
  · exact absurd hst h0
  -- the source stays in the dumpster under another name
  have he : p.src = d := by simpa using hp.src.symm.trans hsrc
  obtain ⟨fa, hlk, hfi, hft, -⟩ := hb.lookup h
  obtain ⟨-, hsd, hsn, -⟩ := hp.mem h
  rw [← he, hsd, hsn] at hlk
  have hty : p.sfattr.type = .file := by
    rw [show p.sfattr = fa by simpa using hp.found.symm.trans hlk, hft]
  have h₁ : Hierarchy fs₁.leaves := (clearTarget_cleared (removeF_moves env 2) htidy h hp hc).hier
  rw [← hstay p hp he, ← he]
  refine relink_stays h₁ hty ?_ hl
  rw [he]
  unfold clearTarget at hc
  rw [if_neg (show ¬ p.sfattr.type = .dir by rw [hty]; decide)] at hc
  split_ifs at hc with hex
  · exact hdst p fs₁ hp hty hex hc
  · obtain ⟨-, rfl⟩ : 0 = (0 : ℤ) ∧ fs = fs₁ := by simpa using hc
    exact hb.entry.kept

theorem cleanupDumpster_keeps_busy (htidy : Tidy fs) (h : Hierarchy fs.leaves) (hD : DumpsterAt fs.leaves D)
    (hb : Busy env fs.leaves d) (hdir : d.dir = D) (hc : cleanupDumpster env fs = some fs') :
    Kept fs.leaves fs'.leaves d := by
  have := cleanupDumpster_induct (P := fun fs₁ => (Tidy fs₁ ∧ Hierarchy fs₁.leaves ∧ DumpsterAt fs₁.leaves D) ∧
      Busy env fs₁.leaves d ∧ Kept fs.leaves fs₁.leaves d) (fun fs₁ dir name st fs₂ hi hr => ?_)
    ⟨⟨htidy, h, hD⟩, hb, hb.entry.kept⟩ hc
  · exact this.2.2
  obtain ⟨⟨htidy₁, h₁, hD₁⟩, hb₁, hk₁⟩ := hi
  have hk := remove_keeps_busy htidy₁ h₁ hD₁ hb₁ hdir hr
  exact ⟨⟨(removeF_tidy env 2 htidy₁ hr).1, remove_hier htidy₁ h₁ hr, removeF_dumpster env 2 htidy₁ h₁ hD₁ hr⟩,
    hb₁.carried h₁ (removeF_carried env 2 htidy₁ h₁ hr) hk, hk₁.trans hk⟩

theorem emptyDumpsterDir_keeps_busy (htidy : Tidy fs) (h : Hierarchy fs.leaves) (hD : DumpsterAt fs.leaves D)
    (hb : Busy env fs.leaves d) (hdir : d.dir = D) (he : emptyDumpsterDir env fs = some fs') :
    Kept fs.leaves fs'.leaves d := by
  obtain ⟨st, id, fs₁, hm, htidy₁, h₁, hc⟩ := emptyDumpsterDir_cases htidy h he
  have hk₁ := mkdir_kept hb.entry hm
  exact hk₁.trans (cleanupDumpster_keeps_busy htidy₁ h₁ (hD.of_subset (mkdir_subset hm))
    (hb.carried h (mkdir_carried hm) hk₁) hdir hc)

theorem truncate_kept (h : Hierarchy fs.leaves) (hd : FileEntry fs.leaves d) (hne : fid ≠ d.id) {offset a : ℤ}
    (ht : truncate env fs fid offset = some (st, a, fs')) : Kept fs.leaves fs'.leaves d := by
  rcases truncate_spec ht with ⟨-, rfl⟩ | ⟨fa, hf, -, -, ⟨-, -, -, rfl⟩ | ⟨-, -, l₁, hdel, rfl⟩⟩
  · exact hd.kept
  · exact hd.setFattr h hf rfl rfl
  · obtain ⟨hfm, hfi⟩ := getFattr_some hf
    have hm := (deleteChunks_mem hdel).2
    have h₁ := h.deleteChunks hdel
    have hk₁ : Kept fs.leaves l₁ d := by
      refine hd.kept_of fun x hx hpart => ?_
      cases x with
      | dentry e => exact (hm _ (by simp)).mpr hx
      | fattr f => exact (hm _ (by simp)).mpr hx
      | chunkinfo c =>
        refine (deleteChunks_other hdel fun c' hc' hcc => hne ?_).mpr hx
        have hmem := (deadChunks_sublist _ _).subset hc'
        rw [mem_getalloc] at hmem
        rw [← hfi, ← hmem.2, hcc]
        exact hpart
    exact hk₁.trans (hk₁.entry.setFattr h₁ (f := fa)
      (h₁.uniq.getFattr_iff.mpr ⟨(hm _ (by simp)).mpr hfm, hfi⟩) rfl rfl)

/-- **One step keeps a busy file in the dumpster.** -/
theorem handle_stays {e : Event} (h : Intact s) (hD : DumpsterAt s.fs.leaves D) (hs : DumpsterSafe s e)
    (hb : Busy e.env s.fs.leaves d) (hdir : d.dir = D) (ht : e.req.touches s d.id = false)
    (ho : handle e.worm e.env s e.req = some o) : Stays s.fs.leaves o.sys.fs.leaves D d.id := by
  obtain ⟨worm, env, req⟩ := e
  obtain ⟨-, hsafe⟩ := hs
  have hkept : Kept s.fs.leaves o.sys.fs.leaves d → Stays s.fs.leaves o.sys.fs.leaves D d.id := by
    rw [← hdir]
    exact Kept.stays
  cases hcase : handle_cases ho with
  | refused _ => exact hkept hb.entry.kept
  | create _ hc => exact hkept (create_keeps_busy h.tidy h.hier hD hb hdir hc)
  | mkdir _ hm => exact hkept (mkdir_kept hb.entry hm)
  | remove hr => exact hkept (remove_keeps_busy h.tidy h.hier hD hb hdir hr)
  | rmdir hr => exact hkept (rmdir_kept h.hier hb.entry hr)
  | rename _ =>
    rcases handle_rename_cases ho with he | ⟨hw, st, fs', hr, he⟩
    · rw [he] at hkept ⊢
      exact hkept hb.entry.kept
    · rw [he]
      refine rename_keeps_busy h.tidy h.hier hD hb hdir (fun p hp he => ?_) hr
      subst he
      exact (rename_safe h.hier hD hw hsafe hp).2.1 hdir hb
  | allocate ha =>
    rw [startAllocate_leaves ha] at hkept ⊢
    exact hkept hb.entry.kept
  | assigned hp ha =>
    refine hkept (assignChunkId_kept h.hier hb.entry (fun _ _ _ hid => ?_) ha)
    simp [Req.touches, hp, hid] at ht
  | layoutFailed _ =>
    rw [changeIncarnationNumber_leaves] at hkept ⊢
    exact hkept hb.entry.kept
  | truncate htr _ => exact hkept (truncate_kept h.hier hb.entry (of_decide_eq_false ht) htr)
  | truncateAlloc htr _ ha =>
    have hl := startAllocate_leaves ha
    change Kept s.fs.leaves _ d → Stays s.fs.leaves _ D d.id at hkept
    change Stays s.fs.leaves _ D d.id
    rw [hl] at hkept ⊢
    exact hkept (truncate_kept h.hier hb.entry (of_decide_eq_false ht) htr)
  | changeFileReplication hc => exact hkept (changeFileReplication_kept h.hier hb.entry hc)
  | changeIncarnationNumber =>
    rw [changeIncarnationNumber_leaves] at hkept ⊢
    exact hkept hb.entry.kept
  | cleanupDumpster hc => exact hkept (cleanupDumpster_keeps_busy h.tidy h.hier hD hb hdir hc)
  | emptyDumpsterDir he => exact hkept (emptyDumpsterDir_keeps_busy h.tidy h.hier hD hb hdir he)

/-! ### A file that is moved to the dumpster -/

/-- A file other than the source of a renaming stays where it is at its end. -/
theorem Stays.relink {p : RenamePlan} {fs₁ : Fs} (h₁ : Hierarchy fs₁.leaves) (hs : Stays l fs₁.leaves D fid)
    (hne : p.src.id ≠ fid) (hr : relink env fs₁.leaves p = some l') : Stays l l' D fid := by
  obtain ⟨⟨d, hd, hdd, hdi⟩, hch⟩ := hs
  have hk : Kept fs₁.leaves l' d := by
    refine hd.kept_of fun x hx hpart => relink_keeps h₁.uniq hr hx ?_ ?_
    · rintro rfl
      exact hne ((congrArg MetaDentry.id hpart).trans hdi)
    · rintro e rfl
      rw [show e = d from hpart]
      exact hd.not_dot h₁
  exact ⟨⟨d, hk.entry, hdd, hdi⟩, fun c hc hi => hk.chunks c (hch c hc hi) (hi.trans hdi.symm)⟩

/-- What is to hold of the files when the busy file `fa` loses its name: every other file keeps its entry and its
chunks, or is the source of the RENAME and keeps its chunks; and the file is in the dumpster with its chunks if
the request succeeds. -/
structure Diverted (s : Sys) (req : Req) (o : Out) (D : ℤ) (fa : MetaFattr) : Prop where
  others : ∀ d, FileEntry s.fs.leaves d → d.id ≠ fa.id → Kept s.fs.leaves o.sys.fs.leaves d ∨
    (req.source = some (d.dir, d.name) ∧ ∃ dir, Stays s.fs.leaves o.sys.fs.leaves dir d.id)
  moved : o.status = some 0 → Stays s.fs.leaves o.sys.fs.leaves D fa.id

section

variable {fa : MetaFattr}

theorem diverted_refuse {req : Req} (hst : st ≠ 0) : Diverted s req (refuse s st) D fa :=
  ⟨fun _ hd _ => Or.inl hd.kept, fun hc => absurd (Option.some.inj hc) hst⟩

/-- A file with another id has another name. -/
theorem FileEntry.other_name (h : Hierarchy l) (hd : FileEntry l d)
    (hl : lookup l dir name = some (some fa)) (hne : d.id ≠ fa.id) : ¬ (d.dir = dir ∧ d.name = name) := by
  intro hc
  obtain ⟨hdm, -⟩ := h.lookup_iff.mp hl
  exact hne (congrArg MetaDentry.id (h.uniq.eq_of_name hd.mem hdm hc.1 hc.2))

theorem remove_diverted (h : Intact s) (hD : DumpsterAt s.fs.leaves D)
    (hl : lookup s.fs.leaves dir name = some (some fa)) (ht : fa.type = .file)
    (hb : busy env s.fs.leaves fa = true) (hne : dir ≠ D) (hrep : replaces env s.fs dir name = false)
    (hr : remove env s.fs dir name = some (st, fs')) :
    Diverted s (.remove dir name) (done s st fs' (.remove dir name)) D fa := by
  refine ⟨fun d hd hid => Or.inl ?_, fun hst => ?_⟩
  · exact remove_spares h.tidy h.hier hD hrep hd (hd.other_name h.hier hl hid) hr
  · rw [show st = 0 from Option.some.inj hst] at hr
    exact remove_stays h.tidy h.hier hD hl ht hb hne hr

theorem create_diverted (h : Intact s) (hD : DumpsterAt s.fs.leaves D)
    (hl : lookup s.fs.leaves dir name = some (some fa)) (ht : fa.type = .file)
    (hb : busy env s.fs.leaves fa = true) (hne : dir ≠ D) {n id : ℤ} {exclusive : Bool}
    (hrep : exclusive = false → 0 < n → replaces env s.fs dir name = false)
    (hc : create env s.fs dir name 0 n exclusive = some (st, id, fs')) :
    Diverted s (.create dir name n exclusive) (done s st fs' (.create dir name id n)) D fa := by
  rcases create_spec hc with ⟨hst, rfl⟩ | ⟨-, hn, fa', hl', hf, st₁, fs₁, hr, hcase⟩
  · exact ⟨fun _ hd _ => Or.inl hd.kept, fun hc => by
      rw [show st = 0 from Option.some.inj hc] at hst
      exact absurd hst (lt_irrefl 0)⟩
  obtain rfl : some fa = fa' := by simpa using hl.symm.trans hl'
  have hrep' := hrep (hf fa rfl).2 hn
  change remove env s.fs dir name = some (st₁, fs₁) at hr
  have hdiv := remove_diverted h hD hl ht hb hne hrep' hr
  rcases hcase with ⟨rfl, rfl, rfl⟩ | ⟨rfl, rfl, rfl, l', hlk, rfl⟩
  · exact ⟨fun d hd hid => hdiv.others d hd hid, fun hst => hdiv.moved hst⟩
  · refine ⟨fun d hd hid => Or.inl ?_, fun _ => ?_⟩
    · rcases hdiv.others d hd hid with hk | ⟨hc, -⟩
      · exact hk.trans (hk.entry.kept_of fun x hx _ => link_subset hlk hx)
      · simp [Req.source] at hc
    · obtain ⟨⟨d, hd, hdd, hdi⟩, hch⟩ := hdiv.moved rfl
      have hk := hd.kept_of fun x hx _ => link_subset hlk hx
      exact ⟨⟨d, hk.entry, hdd, hdi⟩, fun c hc hi => link_subset hlk (hch c hc hi)⟩

theorem rename_diverted (h : Intact s) (hD : DumpsterAt s.fs.leaves D) {oldname newname : Str}
    {overwrite : Bool} {p : RenamePlan} {parent : ℤ} (hp : p.Checked s.fs.leaves parent oldname newname overwrite)
    (hex : p.dexists = true) (hl : lookup s.fs.leaves p.ddir p.dname = some (some fa)) (ht : fa.type = .file)
    (hb : busy env s.fs.leaves fa = true) (hne : p.ddir ≠ D)
    (hrep : p.sfattr.type = .file → replaces env s.fs p.ddir p.dname = false)
    (hr : rename env s.fs parent oldname newname overwrite = some (st, fs')) :
    Diverted s (.rename parent oldname newname overwrite)
      (done s st fs' (.rename parent oldname newname)) D fa := by
  obtain ⟨hsm, hsd, hsn, hfm, hsi⟩ := hp.mem h.hier
  have hty : p.sfattr.type = .file := by
    obtain ⟨dfattr, hdf, -, hall⟩ := hp.dst
    obtain rfl : some fa = dfattr := by simpa using hl.symm.trans hdf
    rw [← (hall fa rfl).2.1, ht]
  have hspare : ∀ {d fs₁}, FileEntry s.fs.leaves d → d.id ≠ fa.id →
      removeF 2 env s.fs p.ddir p.dname = some (0, fs₁) → Kept s.fs.leaves fs₁.leaves d :=
    fun hd hid hrm => remove_spares h.tidy h.hier hD (hrep hty) hd (hd.other_name h.hier hl hid) hrm
  have hplan : ∀ {p' : RenamePlan}, p'.Checked s.fs.leaves parent oldname newname overwrite → p' = p := by
    intro p' hp'
    have := (renameCheck_iff.mpr hp').symm.trans (renameCheck_iff.mpr hp)
    simpa using this
  have hsrc : FileEntry s.fs.leaves p.src := hp.entry h.hier hty
  have hsne : p.src.id ≠ fa.id := by
    intro hc
    obtain ⟨hdm, -⟩ := h.hier.lookup_iff.mp hl
    have he := hsrc.eq_entry h.hier hdm hc.symm
    rw [← he] at hsd hsn
    exact hp.ne ⟨hsd, hsn⟩
  by_cases hst : st = 0
  swap
  · have he := renameWith_atomic (removeF_atomic env 2) h.tidy hr hst
    refine ⟨fun d hd _ => Or.inl ?_, fun hc => absurd (Option.some.inj hc) hst⟩
    change Kept s.fs.leaves fs'.leaves d
    rw [he]
    exact hd.kept
  rcases renameWith_spec hr with ⟨hc, -⟩ | ⟨p', hp', ⟨h0, -⟩ | ⟨-, fs₁, l', hc, hlk, rfl⟩⟩
  · have hok := (renameCheck_iff.mpr hp).symm.trans hc
    simp at hok
  · exact absurd hst h0
  obtain rfl := hplan hp'
  have h₁ : Hierarchy fs₁.leaves := (clearTarget_cleared (removeF_moves env 2) h.tidy h.hier hp hc).hier
  unfold clearTarget at hc
  rw [if_pos hex, if_neg (show ¬ p'.sfattr.type = .dir by rw [hty]; decide)] at hc
  refine ⟨fun d hd hid => ?_, fun _ => ?_⟩
  · by_cases hds : p'.src = d
    · subst hds
      exact Or.inr ⟨by rw [hsd, hsn]; rfl, p'.ddir, relink_stays h₁ hty (hspare hd hid hc) hlk⟩
    · left
      refine renameWith_kept (removeF_moves env 2) (removeF_atomic env 2) h.tidy h.hier hd (fun q hq => ?_)
        (fun q fs₂ hq _ _ hrm => ?_) hr
      · rwa [hplan hq]
      · rw [hplan hq] at hrm
        exact hspare hd hid hrm
  · exact (remove_stays h.tidy h.hier hD hl ht hb hne hc).relink h₁ hsne hlk

end

/-- **One step that diverts a busy file** replaces and destroys no other. -/
theorem handle_diverted {e : Event} {fa : MetaFattr} (h : Intact s) (hD : DumpsterAt s.fs.leaves D)
    (hs : DumpsterSafe s e) (ho : handle e.worm e.env s e.req = some o)
    (hv : e.req.doomed s.fs.leaves = some (dir, name)) (hl : lookup s.fs.leaves dir name = some (some fa))
    (ht : fa.type = .file) (hb : busy e.env s.fs.leaves fa = true) (hne : dir ≠ D) :
    Diverted s e.req o D fa := by
  obtain ⟨worm, env, req⟩ := e
  obtain ⟨-, hsafe⟩ := hs
  cases req with
  | create dir' name' n exclusive =>
    obtain ⟨rfl, rfl⟩ : dir' = dir ∧ name' = name := by simpa [Req.doomed] using hv
    cases handle_cases ho with
    | refused hst => exact diverted_refuse hst.ne
    | create _ hc =>
      refine create_diverted h hD hl ht hb hne (fun hex hn => ?_) hc
      simpa [dumpsterUnsafe, hex, hn] using hsafe
  | remove dir' name' =>
    obtain ⟨rfl, rfl⟩ : dir' = dir ∧ name' = name := by simpa [Req.doomed] using hv
    rcases handle_remove_cases ho with he | ⟨hw, st, fs', hr, he⟩
    · rw [he]
      exact diverted_refuse (by decide)
    · rw [he]
      refine remove_diverted h hD hl ht hb hne ?_ hr
      rw [dumpsterUnsafe, hw, Bool.true_and] at hsafe
      exact hsafe
  | rename parent oldname newname overwrite =>
    obtain ⟨p, hc, hex, rfl, rfl⟩ : ∃ p, renameCheck s.fs.leaves parent oldname newname overwrite =
        some (.ok p) ∧ p.dexists = true ∧ p.ddir = dir ∧ p.dname = name := by
      simp only [Req.doomed] at hv
      split at hv
      · rename_i p hc
        split_ifs at hv with hex
        simp only [Option.some.injEq, Prod.mk.injEq] at hv
        exact ⟨p, hc, hex, hv⟩
      · simp at hv
    have hp := renameCheck_iff.mp hc
    rcases handle_rename_cases ho with he | ⟨hw, st, fs', hr, he⟩
    · rw [he]
      exact diverted_refuse (by decide)
    · rw [he]
      exact rename_diverted h hD hp hex hl ht hb hne
        (fun hty => (rename_safe h.hier hD hw hsafe hp).2.2 hty hex) hr
  | mkdir _ _ | rmdir _ _ | allocate _ _ _ _ | layoutDone _ _ | truncate _ _ _ _ | changeFileReplication _ _
  | changeIncarnationNumber | cleanupDumpster | emptyDumpsterDir => simp [Req.doomed] at hv

/-! ## Runs -/

/-- A start of the server on the tree of `new_tree` makes the dumpster. -/
theorem emptyDumpsterDir_newTree {env₁ : Env} (h₀ : newTree env = some fs)
    (h₁ : emptyDumpsterDir env₁ fs = some fs') : Intact ⟨fs', []⟩ ∧ ∃ D, DumpsterAt fs'.leaves D := by
  have hint := newTree_intact h₀
  have hint' : Intact ⟨fs', []⟩ := ⟨emptyDumpsterDir_hier hint.tidy hint.hier h₁,
    emptyDumpsterDir_tidy hint.tidy h₁, by simp⟩
  obtain ⟨st, id, fs₁, hm, htidy₁, hh₁, hc⟩ := emptyDumpsterDir_cases hint.tidy hint.hier h₁
  have hst : st = 0 := by
    rw [newTree_eq] at h₀
    obtain rfl := Option.some.inj h₀
    have hz : (mkdir env₁ ⟨rootLeaves env, ROOTFID, ROOTFID, 0, 1⟩ ROOTFID DUMPSTERDIR 0).map Prod.fst =
        some 0 := by rfl
    simpa [hm] using hz
  refine ⟨hint', id, cleanupDumpster_dumpster htidy₁ hh₁ ?_ hc⟩
  have hnew : ∀ fs₂ : Fs, DumpsterAt (Fs.mkdirAt env₁ fs₂ ROOTFID DUMPSTERDIR id).leaves id := fun fs₂ =>
    ⟨mem_dentry_mkdirAt.mpr (Or.inr (Or.inr (Or.inl rfl))), _, mem_fattr_mkdirAt.mpr (Or.inl rfl), rfl, rfl⟩
  rcases mkdir_spec hm with ⟨h0, -⟩ | ⟨-, -, -, ⟨-, -, -, rfl⟩ | ⟨-, hs, -⟩ | ⟨h0, -⟩⟩
  · omega
  · exact hnew _
  · exact absurd hs (by decide)
  · exact absurd rfl h0

/-- A chunk of the file has a valid lease. -/
def leased (env : Env) (l : List Meta) (fid : ℤ) : Bool :=
  (getFattr l fid).any fun fa => decide (fa.type = .file) && busy env l fa

theorem leased_busy (hd : FileEntry l d) (h : leased env l d.id = true) : Busy env l d := by
  rw [leased, Option.any_eq_true_iff_get] at h
  obtain ⟨hsome, h⟩ := h
  obtain ⟨fa, hf⟩ := Option.isSome_iff_exists.mp hsome
  simp only [hf, Option.get_some, Bool.and_eq_true, decide_eq_true_iff] at h
  obtain ⟨hfm, hfi⟩ := getFattr_some hf
  exact ⟨hd.mem, fa, hfm, hfi, h.1, h.2⟩

/-- The steps during which the file `fid` has a valid lease and its chunks are not changed. -/
def Held (fid : ℤ) (s : Sys) (e : Event) : Prop :=
  DumpsterSafe s e ∧ leased e.env s.fs.leaves fid = true ∧ e.req.touches s fid = false

instance (fid : ℤ) (s : Sys) (e : Event) : Decidable (Held fid s e) := by unfold Held; infer_instance

theorem Run.stays {s₀ : Sys} {es : List Event} {log : List LogRec} (h : Intact s₀)
    (hD : DumpsterAt s₀.fs.leaves D) (hf : ∃ d, FileEntry s₀.fs.leaves d ∧ d.dir = D ∧ d.id = fid)
    (hr : Run (Held fid) s₀ es s log) : Stays s₀.fs.leaves s.fs.leaves D fid := by
  have := hr.invariant (P := fun s => (Intact s ∧ DumpsterAt s.fs.leaves D) ∧ Stays s₀.fs.leaves s.fs.leaves D fid)
    ⟨⟨h, hD⟩, hf, fun c hc _ => hc⟩ fun s e o hi hc ho => ?_
  · exact this.2
  obtain ⟨⟨hint, hD⟩, ⟨d, hd, hdd, hdi⟩, hch⟩ := hi
  obtain ⟨hsafe, hlease, htouch⟩ := hc
  subst hdi
  have hs := handle_stays hint hD hsafe (leased_busy hd hlease) hdd htouch ho
  exact ⟨⟨handle_intact hint hsafe.1 ho, handle_dumpster hint hD hsafe ho⟩, hs.entry,
    fun c hc hi => hs.chunks c (hch c hc hi) hi⟩

/-- **Dumpster safety.** In every state of a run of safe steps from the start of the server, `/dumpster` is a
directory `D`; every file in it stays there with its chunks while it has a valid lease; and the next step, when
it takes the name of a busy file away, moves that file to `D` and replaces or destroys no other. -/
theorem dumpster_safe {env₁ : Env} {fs₁ : Fs} (h₀ : newTree env = some fs)
    (h₁ : emptyDumpsterDir env₁ fs = some fs₁) {es : List Event} {log : List LogRec}
    (hr : Run DumpsterSafe ⟨fs₁, []⟩ es s log) :
    ∃ D, (∃ du, lookup s.fs.leaves ROOTFID DUMPSTERDIR = some (some du) ∧ du.id = D ∧ du.type = .dir) ∧
      (∀ fid es' s' log', (∃ d, FileEntry s.fs.leaves d ∧ d.dir = D ∧ d.id = fid) →
        Run (Held fid) s es' s' log' → Stays s.fs.leaves s'.fs.leaves D fid) ∧
      ∀ e o dir name fa, DumpsterSafe s e → handle e.worm e.env s e.req = some o →
        e.req.doomed s.fs.leaves = some (dir, name) → lookup s.fs.leaves dir name = some (some fa) →
        fa.type = .file → busy e.env s.fs.leaves fa = true → dir ≠ D → Diverted s e.req o D fa := by
  obtain ⟨hint₁, D, hD₁⟩ := emptyDumpsterDir_newTree h₀ h₁
  obtain ⟨hint, hD⟩ := hr.invariant (P := fun s => Intact s ∧ DumpsterAt s.fs.leaves D) ⟨hint₁, hD₁⟩
    fun s e o hi hc ho => ⟨handle_intact hi.1 hc.1 ho, handle_dumpster hi.1 hi.2 hc ho⟩
  exact ⟨D, hD.lookup hint.hier, fun fid es' s' log' hf hr' => Run.stays hint hD hf hr',
    fun e o dir name fa hs ho hv hl ht hb hne => handle_diverted hint hD hs ho hv hl ht hb hne⟩

/-- The server after its first start. -/
def startSys : Sys := ⟨(emptyDumpsterDir idleEnv rootSys.fs).getD rootSys.fs, []⟩

/-- A request while all chunks are leased. -/
def leasedEv (req : Req) : Event := ⟨false, busyEnv, req⟩

/-- A file with one chunk is removed while the chunk is leased; the dumpster has id 3, the file has id 4. -/
def dumpRun : List Event :=
  [idle (.create ROOTFID ['f'] 1 false), idle (.allocate 4 0 .valid true), idle (.layoutDone 0 true),
    leasedEv (.remove ROOTFID ['f'])]

/-- Clean-ups and requests about the file in the dumpster while the chunk is leased. -/
def keepRun : List Event :=
  [leasedEv .cleanupDumpster, leasedEv (.rename 3 ['f', '1'] ['g'] false), leasedEv (.remove 3 ['g']),
    leasedEv .cleanupDumpster]

theorem dump_stays : ∃ s log s' log', exec DumpsterSafe startSys dumpRun = some (s, log) ∧
    exec (Held 4) s keepRun = some (s', log') ∧ .dentry ⟨3, ['f', '1'], 4⟩ ∈ s.fs.leaves ∧
    .chunkinfo ⟨4, 0, 3, 0⟩ ∈ s.fs.leaves ∧ Stays s.fs.leaves s'.fs.leaves 3 4 := by
  have hx : ((exec DumpsterSafe startSys dumpRun).bind fun r => (exec (Held 4) r.1 keepRun).map fun _ =>
      decide (.dentry ⟨3, ['f', '1'], 4⟩ ∈ r.1.fs.leaves ∧ .chunkinfo ⟨4, 0, 3, 0⟩ ∈ r.1.fs.leaves) &&
      ((lookup r.1.fs.leaves ROOTFID DUMPSTERDIR).any fun du => du.any fun du => decide (du.id = 3)) &&
      ((fattrs r.1.fs.leaves).any fun f => decide (f.id = 4 ∧ f.type = .file))) = some true := by
    decide +kernel
  obtain ⟨⟨s, log⟩, hx₀, hx⟩ := Option.bind_eq_some_iff.mp hx
  obtain ⟨⟨s', log'⟩, hx, hf⟩ := Option.map_eq_some_iff.mp hx
  simp only [Bool.and_eq_true, decide_eq_true_iff, List.any_eq_true, mem_fattrs] at hf
  obtain ⟨⟨⟨hd, hc⟩, hdump⟩, hfile⟩ := hf
  have h₁ : emptyDumpsterDir idleEnv rootSys.fs = some startSys.fs := by
    have hs : (emptyDumpsterDir idleEnv rootSys.fs).isSome = true := by decide +kernel
    obtain ⟨fs₁, hs⟩ := Option.isSome_iff_exists.mp hs
    rw [startSys, hs]
    rfl
  obtain ⟨D, ⟨du, hdu, rfl, -⟩, hstay, -⟩ := dumpster_safe (newTree_eq idleEnv) h₁ (Run.of_exec hx₀)
  have hid : du.id = 3 := by simpa [hdu] using hdump
  rw [hid] at hstay
  exact ⟨s, log, s', log', hx₀, hx, hd, hc, hstay 4 _ s' log' ⟨_, ⟨hd, hfile⟩, rfl, rfl⟩ (Run.of_exec hx)⟩

/-- A client renames `/dumpster`: the clean-up uses the missing attributes. A client creates the file that has
the next name in `/dumpster`: the removal of a busy file destroys it. A client renames a busy file out of
`/dumpster`. -/
theorem dumpster_lost :
    (∃ s log, exec (fun _ _ => True) startSys [idle (.rename ROOTFID DUMPSTERDIR ['d'] false)] = some (s, log) ∧
      lookup s.fs.leaves ROOTFID DUMPSTERDIR = some none ∧ handle false idleEnv s .cleanupDumpster = none) ∧
    (∃ s log s' log', exec (fun _ _ => True) startSys (dumpRun.take 3 ++ [idle (.create 3 ['f', '1'] 1 false)]) =
        some (s, log) ∧ FileEntry s.fs.leaves ⟨3, ['f', '1'], 5⟩ ∧
      exec (fun _ _ => True) s [leasedEv (.remove ROOTFID ['f'])] = some (s', log') ∧
      ∀ f, .fattr f ∈ s'.fs.leaves → f.id ≠ 5) ∧
    ∃ s log, exec (fun _ _ => True) startSys (dumpRun ++ [leasedEv (.rename 3 ['f', '1'] "../f".toList false)]) =
        some (s, log) ∧ ∀ d, .dentry d ∈ s.fs.leaves → d.dir = 3 → d.id ≠ 4 := by
  refine ⟨?_, ?_, ?_⟩
  · have hx : (exec (fun _ _ => True) startSys [idle (.rename ROOTFID DUMPSTERDIR ['d'] false)]).map (fun r =>
        decide (lookup r.1.fs.leaves ROOTFID DUMPSTERDIR = some none) &&
        (handle false idleEnv r.1 .cleanupDumpster).isNone) = some true := by decide +kernel
    obtain ⟨⟨s, log⟩, hx, hf⟩ := Option.map_eq_some_iff.mp hx
    rw [Bool.and_eq_true, decide_eq_true_iff, Option.isNone_iff_eq_none] at hf
    exact ⟨s, log, hx, hf.1, hf.2⟩
  · have hx : ((exec (fun _ _ => True) startSys
        (dumpRun.take 3 ++ [idle (.create 3 ['f', '1'] 1 false)])).bind fun r =>
        (exec (fun _ _ => True) r.1 [leasedEv (.remove ROOTFID ['f'])]).map fun r' =>
          decide (.dentry ⟨3, ['f', '1'], 5⟩ ∈ r.1.fs.leaves) &&
          ((fattrs r.1.fs.leaves).any fun f => decide (f.id = 5 ∧ f.type = .file)) &&
          (fattrs r'.1.fs.leaves).all fun f => decide (f.id ≠ 5)) = some true := by decide +kernel
    obtain ⟨⟨s, log⟩, hx₀, hx⟩ := Option.bind_eq_some_iff.mp hx
    obtain ⟨⟨s', log'⟩, hx, hf⟩ := Option.map_eq_some_iff.mp hx
    simp only [Bool.and_eq_true, decide_eq_true_iff, List.any_eq_true, List.all_eq_true, mem_fattrs] at hf
    exact ⟨s, log, s', log', hx₀, ⟨hf.1.1, hf.1.2⟩, hx, hf.2⟩
  · have hx : (exec (fun _ _ => True) startSys
        (dumpRun ++ [leasedEv (.rename 3 ['f', '1'] "../f".toList false)])).map (fun r =>
        (dentries r.1.fs.leaves).all fun d => decide (d.dir = 3 → d.id ≠ 4)) = some true := by decide +kernel
    obtain ⟨⟨s, log⟩, hx, hf⟩ := Option.map_eq_some_iff.mp hx
    simp only [List.all_eq_true, decide_eq_true_iff, mem_dentries] at hf
    exact ⟨s, log, hx, hf⟩

end Kfs
