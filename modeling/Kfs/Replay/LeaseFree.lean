import Kfs.Replay.Names
import Kfs.Replay.Written

/-!
# Replaying a run without leases

When no file is removed while it is leased, the handlers of `replay.cc` do what the request handlers did: they
run the same operations of the tree, with the ids of the log. Each step of the server is followed by the replay
of its record, and the two trees look the same after it.

* `LeaseFreeStep`: the steps considered; `NamedStep`: those without the empty name;
* `Matched`: a waiting allocation has the id of the chunk at its place; `Follows`: the replayed tree;
* `handle_follows`: a step is followed; **`replay_lease_free`**: so is a run;
* `emptyName_rejected`: the empty name is accepted by `mkdir` and written to a line that the reader rejects.
-/

namespace Kfs

variable {env env' : Env} {fs fs' : Fs} {s : Sys} {o : Out} {l l' : List Meta}

/-! ## Trees that look the same everywhere -/

theorem filter_visible_empty (l : List Meta) : l.filter (visible ∅ ∅) = l :=
  List.filter_eq_self.mpr fun x _ => visible_empty x

section

variable {rep : Bool} {dir fid : ℤ} {name : Str} (h : Twin rep ∅ ∅ l l')

include h

theorem Twin.dents_eq (dir : ℤ) : dents l' dir = dents l dir := by
  have := h.same.dents (Finset.notMem_empty dir)
  simpa using this.symm

theorem Twin.shown (dir : ℤ) (name : Str) : Shown ∅ ∅ l l' dir name := by
  refine ⟨?_, Clear.empty l dir name, Clear.empty l' dir name⟩
  rw [getDentry, getDentry, readdir_eq, readdir_eq, h.dents_eq]

theorem Twin.emptydir_eq (dir : ℤ) : emptydir l' dir = emptydir l dir := by
  rw [emptydir, emptydir, readdir_eq, readdir_eq, h.dents_eq]

theorem Twin.is_descendant_eq {src dst : ℤ} {b : Bool} (hd : is_descendant l src dst = some b) :
    is_descendant l' src dst = some b := by
  have hlen : l'.length = l.length := by
    have := congrArg List.length h.same
    rw [filter_visible_empty, filter_visible_empty] at this
    simpa using this.symm
  unfold is_descendant at hd ⊢
  rw [hlen]
  exact isDescendantLoop_shown h (fun q _ => h.shown q.1 q.2) hd

end

/-! ## The steps considered -/

/-- The file that a request removes or overwrites. -/
def Req.victim (l : List Meta) : Req → Option MetaFattr
  | .create dir name _ exclusive => if exclusive then none else (lookup l dir name).join
  | .remove dir name => (lookup l dir name).join
  | .rename dir oldname newname overwrite =>
    match renameTarget l dir newname with
    | some (.ok (ddir, dname)) =>
      if overwrite ∧ ¬ (ddir = dir ∧ dname = oldname) then (lookup l ddir dname).join else none
    | _ => none
  | _ => none

/-- No file is removed or overwritten while one of its chunks has a valid lease. -/
def NotBusy (env : Env) (l : List Meta) (req : Req) : Prop :=
  ∀ fa ∈ (req.victim l).toList, ∀ c ∈ getalloc l fa.id, env.leased c.chunkId = false

/-- `CREATE`, `MKDIR`, `REMOVE`, `RMDIR`, `RENAME`, `ALLOCATE` and `TRUNCATE`. -/
def Req.isTreeOp : Req → Bool
  | .create .. | .mkdir .. | .remove .. | .rmdir .. | .rename .. | .allocate .. | .layoutDone ..
  | .truncate .. => true
  | _ => false

/-- At most one allocation waits for each place. -/
def OneOutstanding (s : Sys) : Prop := (s.pending.map fun a => (a.fid, a.offset)).Nodup

/-- A parsed request of the kinds considered, with names that have no slash. -/
structure LeaseFreeStep (s : Sys) (e : Event) : Prop where
  parsed : e.req.Parsed
  op : e.req.isTreeOp = true
  noSlash : ∀ n ∈ e.req.names, '/' ∉ n
  one : OneOutstanding s
  notBusy : NotBusy e.env s.fs.leaves e.req
  fits : FitsLine s e

/-- None of the names is empty. -/
structure NamedStep (s : Sys) (e : Event) : Prop extends LeaseFreeStep s e where
  nonempty : ∀ n ∈ e.req.names, n ≠ []

instance (s : Sys) (e : Event) : Decidable (LeaseFreeStep s e) :=
  have : Decidable (OneOutstanding s) := inferInstanceAs (Decidable (List.Nodup _))
  have : Decidable (NotBusy e.env s.fs.leaves e.req) := inferInstanceAs (Decidable (∀ fa ∈ Option.toList _, _))
  have : Decidable (FitsLine s e) := inferInstanceAs (Decidable (∀ r ∈ Option.elim _ [] Out.log, _))
  decidable_of_iff (e.req.Parsed ∧ e.req.isTreeOp = true ∧ (∀ n ∈ e.req.names, '/' ∉ n) ∧ OneOutstanding s ∧
      NotBusy e.env s.fs.leaves e.req ∧ FitsLine s e)
    ⟨fun ⟨h₁, h₂, h₃, h₄, h₅, h₆⟩ => ⟨h₁, h₂, h₃, h₄, h₅, h₆⟩,
      fun h => ⟨h.parsed, h.op, h.noSlash, h.one, h.notBusy, h.fits⟩⟩

instance (s : Sys) (e : Event) : Decidable (NamedStep s e) :=
  decidable_of_iff (LeaseFreeStep s e ∧ ∀ n ∈ e.req.names, n ≠ []) ⟨fun ⟨h₁, h₂⟩ => ⟨h₁, h₂⟩, fun h => ⟨h.1, h.2⟩⟩

theorem NamedStep.legal {e : Event} (h : NamedStep s e) {n : Str} (hn : n ∈ e.req.names) :
    legalname n = true := legalname_iff.mpr ⟨h.nonempty n hn, h.noSlash n hn⟩

/-! ## What is kept -/

/-- A waiting allocation has the id of the chunk that is at its place. -/
def Matched (s : Sys) : Prop :=
  ∀ a ∈ s.pending, ∀ c, .chunkinfo c ∈ s.fs.leaves → c.id = a.fid → c.offset = a.offset → c.chunkId = a.chunkId

/-- The replayed state looks the same, and its seeds are not behind. -/
structure Follows (s : Sys) (R : Fs) : Prop where
  twin : Twin true ∅ ∅ s.fs.leaves R.leaves
  fileID : R.fileID = s.fs.fileID
  chunkID : ∀ c, .chunkinfo c ∈ s.fs.leaves → c.chunkId ≤ R.chunkID

theorem Follows.edits {R : Fs} (h : Follows s R) (he : NameEdits s.fs fs') (hf : fs'.fileID = s.fs.fileID)
    (ht : Twin true ∅ ∅ fs'.leaves l') : Follows { s with fs := fs' } { R with leaves := l' } where
  twin := ht
  fileID := h.fileID.trans hf.symm
  chunkID c hc := h.chunkID c (he.edits.chunk hc)

/-- A step that logs nothing and leaves the tree alone. -/
theorem Follows.idle {R : Fs} {s' : Sys} (h : Follows s R) (hl : s'.fs.leaves = s.fs.leaves)
    (hf : s'.fs.fileID = s.fs.fileID) : Follows s' R where
  twin := by rw [hl]; exact h.twin
  fileID := h.fileID.trans hf.symm
  chunkID c hc := h.chunkID c (by rwa [hl] at hc)

/-- What the steps have to show: the records are redone, and lead to a state that looks the same. -/
def Followed (env' : Env) (R : Fs) (o : Out) : Prop :=
  ∃ R', redoAll env' R o.log = some (true, R') ∧ Follows o.sys R'

theorem Follows.quiet {R : Fs} (h : Follows s R) (hl : o.sys.fs.leaves = s.fs.leaves)
    (hf : o.sys.fs.fileID = s.fs.fileID) (hlog : o.log = []) : Followed env' R o :=
  ⟨R, by rw [hlog, redoAll], h.idle hl hf⟩

/-- A completed request is followed when its record is, or when it failed and changed nothing. -/
theorem followed_done {R : Fs} {st : ℤ} {r : LogRec} (hF : Follows s R)
    (hne : st ≠ 0 → fs'.leaves = s.fs.leaves ∧ fs'.fileID = s.fs.fileID)
    (h0 : st = 0 → ∃ R', redo env' R r = some (true, R') ∧ Follows { s with fs := fs' } R') :
    Followed env' R (done s st fs' r) := by
  by_cases hst : st = 0
  · obtain ⟨R', hR', hF'⟩ := h0 hst
    refine ⟨R', ?_, hF'⟩
    simp [done, hst, redoAll, hR']
  · obtain ⟨hl, hf⟩ := hne hst
    exact hF.quiet hl hf (by simp [done, hst])

/-! ## Removals -/

/-- A removal of a file that is not busy. -/
theorem removeF_idle {fuel : ℕ} {dir st : ℤ} {name : Str}
    (hb : ∀ fa, lookup fs.leaves dir name = some (some fa) →
      ∀ c ∈ getalloc fs.leaves fa.id, env.leased c.chunkId = false)
    (h : removeF (fuel + 1) env fs dir name = some (st, fs')) :
    (st < 0 ∧ fs' = fs) ∨ (st = 0 ∧ ∃ fa l₁ l', lookup fs.leaves dir name = some (some fa) ∧ fa.type = .file ∧
      (fa.chunkcount > 0 → fa.chunkcount = (getalloc fs.leaves fa.id).length) ∧
      dropChunks fs.leaves fa (getalloc fs.leaves fa.id) = some l₁ ∧ unlink l₁ dir name fa false = some l' ∧
      fs' = { fs with leaves := l' }) := by
  rcases removeF_spec h with h | ⟨fa, hl, ht, hcc, ⟨-, ⟨c, hc, hle⟩, -⟩ | ⟨-, h0, l₁, l', h₁, h₂, he⟩⟩
  · exact Or.inl h
  · rw [hb fa hl c hc] at hle
    exact absurd hle Bool.false_ne_true
  · exact Or.inr ⟨h0, fa, l₁, l', hl, ht, hcc, h₁, h₂, he⟩

/-- Such a removal is done again. -/
theorem removeF_follow {R : Fs} {fuel : ℕ} {dir : ℤ} {name : Str} (h : Twin true ∅ ∅ fs.leaves R.leaves)
    (hidle : ∀ c, env'.leased c = false)
    (hb : ∀ fa, lookup fs.leaves dir name = some (some fa) →
      ∀ c ∈ getalloc fs.leaves fa.id, env.leased c.chunkId = false)
    (hr : removeF (fuel + 1) env fs dir name = some (0, fs')) :
    fs' = { fs with leaves := fs'.leaves } ∧
      ∃ l', removeF (fuel + 1) env' R dir name = some (0, { R with leaves := l' }) ∧
        Twin true ∅ ∅ fs'.leaves l' := by
  rcases removeF_idle hb hr with ⟨h0, -⟩ | ⟨-, fa, l₁, l', hl, ht, hcc, h₁, h₂, rfl⟩
  · exact absurd h0 (lt_irrefl _)
  · exact ⟨rfl, removed_twin h (h.shown dir name) hidle hl ht hcc h₁ h₂⟩

theorem remove_followed {R : Fs} {dir st : ℤ} {name : Str} (hF : Follows s R)
    (hidle : ∀ c, env'.leased c = false) (hb : NotBusy env s.fs.leaves (.remove dir name))
    (hr : remove env s.fs dir name = some (st, fs')) :
    Followed env' R (done s st fs' (.remove dir name)) := by
  have hb' : ∀ fa, lookup s.fs.leaves dir name = some (some fa) →
      ∀ c ∈ getalloc s.fs.leaves fa.id, env.leased c.chunkId = false := by
    intro fa hl
    exact hb fa (by simp [Req.victim, hl])
  refine followed_done hF (fun hst => ?_) fun hst => ?_
  · rcases removeF_idle hb' hr with ⟨-, rfl⟩ | ⟨h0, -⟩
    · exact ⟨rfl, rfl⟩
    · exact absurd h0 hst
  · rw [hst] at hr
    obtain ⟨hfs, l', hr', ht⟩ := removeF_follow hF.twin hidle hb' hr
    refine ⟨_, ?_, hF.edits (removeF_edits env 2 hr) (by rw [hfs]) ht⟩
    simp [redo, redoStatus, remove, hr']

theorem rmdir_followed {R : Fs} {dir st : ℤ} {name : Str} (hF : Follows s R)
    (hr : rmdir s.fs dir name = some (st, fs')) :
    Followed env' R (done s st fs' (.rmdir dir name)) := by
  refine followed_done hF (fun hst => ?_) fun hst => ?_
  · rcases rmdir_spec hr with ⟨-, rfl⟩ | ⟨h0, -⟩
    · exact ⟨rfl, rfl⟩
    · exact absurd h0 hst
  · rcases rmdir_spec hr with ⟨h0, -⟩ | ⟨-, fa, l₁, hdone, rfl⟩
    · omega
    have h := hF.twin
    obtain ⟨l', fa', hdone', -, ht⟩ := rmdir_twin h (h.shown dir name)
      (fun n _ => ⟨Clear.empty _ _ _, Clear.empty _ _ _⟩) (h.emptydir_eq fa.id) hdone
    refine ⟨_, ?_, hF.edits (rmdir_edits hr) rfl ht⟩
    simp [redo, redoStatus, hdone'.run]

/-! ## New files and directories -/

theorem mkdir_followed {R : Fs} {dir id st : ℤ} {name : Str} (hN : Numbered s) (hF : Follows s R)
    (hn : legalname name = true)
    (hm : mkdir env s.fs dir name 0 = some (st, id, fs')) :
    Followed env' R (done s st fs' (.mkdir dir name id)) := by
  have hroot := hN.tidy.root
  have hr2 : ROOTFID = 2 := rfl
  refine followed_done hF (fun hst => ?_) fun hst => ?_
  · rcases mkdir_spec hm with ⟨-, rfl⟩ | ⟨h0, -⟩
    · exact ⟨rfl, rfl⟩
    · exact absurd h0 hst
  · rcases mkdir_spec hm with ⟨h0, -⟩ | ⟨-, hl, hname, ⟨-, -, rfl, rfl⟩ | ⟨-, hs, -⟩ | ⟨h0, -⟩⟩
    · omega
    · have hl' : lookup R.leaves dir name = some none := lookup_shown_none (hF.twin.shown dir name) hl
      refine ⟨{ Fs.mkdirAt env' R dir name (s.fs.fileID + 1) with fileID := s.fs.fileID + 1 }, ?_, ?_, rfl, ?_⟩
      · simp only [redo]
        rw [mkdir_run hname hl' (by omega)]
        simp only [redoNew, if_true]
        rw [updateSeed, if_neg]
        · rfl
        · change ¬ s.fs.fileID + 1 < R.fileID
          have := hF.fileID
          omega
      · exact mkdirAt_twin (L := { s.fs with fileID := s.fs.fileID + 1 }) hF.twin name (s.fs.fileID + 1)
      · intro c hc
        exact hF.chunkID c ((mkdirAt_edits env _ dir name _).edits.chunk hc)
    · rw [hs] at hn
      exact absurd hn (by decide)
    · exact absurd rfl h0

theorem create_followed {R : Fs} {dir id n st : ℤ} {name : Str} {exclusive : Bool} (hN : Numbered s)
    (hF : Follows s R) (hidle : ∀ c, env'.leased c = false)
    (hb : NotBusy env s.fs.leaves (.create dir name n exclusive))
    (hc : create env s.fs dir name 0 n exclusive = some (st, id, fs')) :
    Followed env' R (done s st fs' (.create dir name id n)) := by
  have hroot := hN.tidy.root
  have hr2 : ROOTFID = 2 := rfl
  have hrm : ∀ {st₁ : ℤ} {fs₁ : Fs} {fa : Option MetaFattr}, lookup s.fs.leaves dir name = some fa →
      (∀ f, fa = some f → f.type = .file ∧ exclusive = false) →
      removeOld env s.fs dir name fa = some (st₁, fs₁) → (st₁ ≠ 0 → fs₁ = s.fs) ∧
        (st₁ = 0 → fs₁ = { s.fs with leaves := fs₁.leaves } ∧ ∃ fa' l', lookup R.leaves dir name = some fa' ∧
          (∀ f, fa' = some f → f.type = .file ∧ false = false) ∧
          removeOld env' R dir name fa' = some (0, { R with leaves := l' }) ∧
          Twin true ∅ ∅ fs₁.leaves l') := by
    intro st₁ fs₁ fa hl hfa hr
    rcases fa with - | f
    · obtain ⟨rfl, rfl⟩ : 0 = st₁ ∧ s.fs = fs₁ := by simpa [removeOld] using hr
      exact ⟨fun h => absurd rfl h, fun _ => ⟨rfl, none, R.leaves,
        lookup_shown_none (hF.twin.shown dir name) hl, by simp, rfl, hF.twin⟩⟩
    · have hb' : ∀ fa, lookup s.fs.leaves dir name = some (some fa) →
          ∀ c ∈ getalloc s.fs.leaves fa.id, env.leased c.chunkId = false := by
        intro fa hl'
        exact hb fa (by simp [Req.victim, hl', (hfa f rfl).2])
      have hr : remove env s.fs dir name = some (st₁, fs₁) := by simpa [removeOld] using hr
      refine ⟨fun hst => ?_, fun hst => ?_⟩
      · rcases removeF_idle hb' hr with ⟨-, rfl⟩ | ⟨h0, -⟩
        · rfl
        · exact absurd h0 hst
      · rw [hst] at hr
        obtain ⟨hfs, l', hr', ht⟩ := removeF_follow hF.twin hidle hb' hr
        obtain ⟨-, f', hl', hcore⟩ := lookup_shown hF.twin (hF.twin.shown dir name) hl
        refine ⟨hfs, some f', l', hl', ?_, by simpa [removeOld, remove] using hr', ht⟩
        intro g hg
        obtain rfl := Option.some.inj hg
        exact ⟨(core_fields hcore).2.1.trans (hfa f rfl).1, rfl⟩
  rcases create_spec hc with
    ⟨h0, rfl⟩ | ⟨hn, hpos, fa, hl, hfa, st₁, fs₁, hr, ⟨h₁, rfl, rfl⟩ | ⟨rfl, rfl, hid, l₂, hk, rfl⟩⟩
  · exact followed_done hF (fun _ => ⟨rfl, rfl⟩) fun hst => by omega
  · have hst : st ≠ 0 := by rw [h₁]; decide
    have := (hrm hl hfa hr).1 hst
    exact followed_done hF (fun _ => by rw [this]; exact ⟨rfl, rfl⟩)
      fun h0 => absurd h0 hst
  · obtain ⟨hfs, fa', l', hl', hfa', hr', ht⟩ := (hrm hl hfa hr).2 rfl
    simp only [if_true] at hid
    have hid' : id = s.fs.fileID + 1 := by rw [hid, hfs]
    obtain ⟨l₂', hk', ht'⟩ := link_twin env' ht hk
    refine followed_done hF (fun h => absurd rfl h) fun _ => ?_
    refine ⟨{ R with leaves := l₂', fileID := id }, ?_, ht', ?_, ?_⟩
    · simp only [redo]
      rw [create_run hn hpos hl' hfa' hr' (by omega) hk']
      simp only [redoNew, if_true]
      rw [updateSeed, if_neg]
      · rfl
      · have := hF.fileID
        omega
    · simp only [if_true]
      exact hid
    · intro c hcm
      exact hF.chunkID c ((create_edits hc).edits.chunk hcm)

/-! ## Renaming -/

/-- The target of a renaming that is not busy is cleared again. -/
theorem clearTarget_follow {R : Fs} {dir : ℤ} {oldname newname : Str} {overwrite : Bool} {p p' : RenamePlan}
    {fs₁ : Fs} {l₁ : List Meta} (h : Twin true ∅ ∅ fs.leaves R.leaves) (hidle : ∀ c, env'.leased c = false)
    (hp : p.Checked fs.leaves dir oldname newname overwrite)
    (hp' : p'.Checked R.leaves dir oldname newname true) (hddir : p'.ddir = p.ddir) (hdname : p'.dname = p.dname)
    (hex : p'.dexists = p.dexists) (hcore : p'.sfattr.core true = p.sfattr.core true)
    (hb : ∀ fa, lookup fs.leaves p.ddir p.dname = some (some fa) →
      ∀ c ∈ getalloc fs.leaves fa.id, env.leased c.chunkId = false)
    (hcl : clearTarget (removeF 2 env) fs p = some (0, fs₁)) (hr : relink env fs₁.leaves p = some l₁) :
    fs₁ = { fs with leaves := fs₁.leaves } ∧
      ∃ l', clearTarget (removeF 2 env') R p' = some (0, { R with leaves := l' }) ∧
        Twin true ∅ ∅ fs₁.leaves l' ∧ (p.sfattr.type = .dir → .fattr p'.sfattr ∈ l') := by
  by_cases hdir : p.sfattr.type = .dir
  · obtain ⟨l', hcl', ht, hm, -, -, hfs⟩ := clearDir_twin (removeF 2 env') h hp hp' hddir hdname hex hcore
      hdir (h.shown _ _) (fun d _ => ⟨h.emptydir_eq d.id, fun n _ => ⟨Clear.empty _ _ _, Clear.empty _ _ _⟩⟩)
      hcl hr
    exact ⟨hfs, l', hcl', ht, fun _ => hm⟩
  · have hdir' : p'.sfattr.type ≠ .dir := by rwa [(core_fields hcore).2.1]
    unfold clearTarget at hcl ⊢
    rw [if_neg hdir] at hcl
    rw [if_neg hdir', hex, hddir, hdname]
    split_ifs at hcl ⊢ with hx
    · obtain ⟨hfs, l', hrm, ht⟩ := removeF_follow h hidle hb hcl
      exact ⟨hfs, l', hrm, ht, fun hd => absurd hd hdir⟩
    · obtain ⟨-, rfl⟩ : (0 : ℤ) = 0 ∧ fs = fs₁ := by simpa using hcl
      exact ⟨rfl, R.leaves, rfl, h, fun hd => absurd hd hdir⟩

theorem rename_followed {R : Fs} {dir st : ℤ} {oldname newname : Str} {overwrite : Bool} (hF : Follows s R)
    (hidle : ∀ c, env'.leased c = false)
    (hb : NotBusy env s.fs.leaves (.rename dir oldname newname overwrite))
    (hr : rename env s.fs dir oldname newname overwrite = some (st, fs')) :
    Followed env' R (done s st fs' (.rename dir oldname newname)) := by
  have h := hF.twin
  have htgt : ∀ {ddir : ℤ} {dname : Str}, renameTarget s.fs.leaves dir newname = some (.ok (ddir, dname)) →
      renameTarget R.leaves dir newname = some (.ok (ddir, dname)) := fun ht =>
    renameTarget_shown h (fun q _ => h.shown q.1 q.2) ht
  have hb' : ∀ {p : RenamePlan}, p.Checked s.fs.leaves dir oldname newname overwrite →
      ∀ fa, lookup s.fs.leaves p.ddir p.dname = some (some fa) →
        ∀ c ∈ getalloc s.fs.leaves fa.id, env.leased c.chunkId = false := by
    intro p hp fa hl
    obtain ⟨df, hdf, -, hdst⟩ := hp.dst
    obtain rfl : df = some fa := Option.some.inj (hdf.symm.trans hl)
    have how := (hdst fa rfl).1
    exact hb fa (by simp only [Req.victim, hp.target, how, hp.ne, hl]; simp)
  refine followed_done hF (fun hst => ?_) fun hst => ?_
  · rcases renameWith_spec hr with ⟨-, rfl⟩ | ⟨p, hp, ⟨-, hcl⟩ | ⟨h0, -⟩⟩
    · exact ⟨rfl, rfl⟩
    · unfold clearTarget at hcl
      split_ifs at hcl
      · rcases rmdir_spec hcl with ⟨-, rfl⟩ | ⟨h0, -⟩
        · exact ⟨rfl, rfl⟩
        · exact absurd h0 hst
      · rcases removeF_idle (hb' hp) hcl with ⟨-, rfl⟩ | ⟨h0, -⟩
        · exact ⟨rfl, rfl⟩
        · exact absurd h0 hst
      · obtain ⟨h0, -⟩ : 0 = st ∧ s.fs = fs' := by simpa using hcl
        exact absurd h0.symm hst
    · exact absurd h0 hst
  · subst hst
    rcases renameWith_spec hr with ⟨hz, rfl⟩ | ⟨p, hp, ⟨h0, -⟩ | ⟨-, fs₁, l₁, hcl, hrl, rfl⟩⟩
    · -- the name stays as it is
      obtain ⟨⟨d, hd⟩, ht, hn⟩ := renameCheck_zero_iff.mp hz
      refine ⟨R, ?_, hF⟩
      have hz' : renameCheck R.leaves dir oldname newname true = some (.error 0) :=
        renameCheck_zero_iff.mpr ⟨⟨d, (h.shown dir oldname).eq.trans hd⟩, htgt ht, hn⟩
      simp [redo, redoStatus, rename, renameWith, hz']
    · exact absurd rfl h0
    · obtain ⟨p', hp', hsrc, hddir, hdname, hex, hcore⟩ := hp.twin h (h.shown dir oldname) (htgt hp.target)
        (h.shown _ _) (fun d _ _ => h.emptydir_eq d.id) fun hdir => h.is_descendant_eq (hp.loop hdir)
      obtain ⟨hfs, l', hcl', ht, hm⟩ :=
        clearTarget_follow h hidle hp hp' hddir hdname hex hcore (hb' hp) hcl hrl
      obtain ⟨l₁', hrl', ht'⟩ := relink_twin env' ht hsrc hddir hdname hcore (Clear.empty _ _ _)
        (Clear.empty _ _ _) (fun _ => ⟨Clear.empty _ _ _, Clear.empty _ _ _⟩) hm hrl
      refine ⟨{ R with leaves := l₁' }, ?_, hF.edits (renameWith_edits (removeF_edits env 2) hr) ?_ ht'⟩
      · simp [redo, redoStatus, rename, renameWith_run hp' hcl' hrl']
      · have hid := congrArg Fs.fileID hfs
        exact hid

/-! ## Chunks -/

theorem allocate_followed {R : Fs} {fid offset : ℤ} {reply : LeaseReply} {placed : Bool} (hF : Follows s R)
    (ha : startAllocate s fid offset reply placed = some o) : Followed env' R o := by
  rcases startAllocate_spec ha with
    ⟨-, rfl⟩ | ⟨fa, hf, -, hal, ⟨c, hc, ⟨st, -, rfl⟩ | ⟨-, rfl⟩ | ⟨-, rfl⟩⟩ | ⟨-, ⟨-, rfl⟩ | ⟨-, rfl⟩⟩⟩
  · exact hF.quiet rfl rfl rfl
  · exact hF.quiet rfl rfl rfl
  · have hi := Finset.notMem_empty fid
    obtain ⟨fa', hf', -⟩ := hF.twin.same.getFattr_some hi hf
    have hc' := (hF.twin.same.getChunk hi (chunkStartOffset offset)).symm.trans hc
    refine followed_done hF (fun h => absurd rfl h) fun _ => ⟨R, redoAllocate_known hf' hal hc', hF⟩
  · exact hF.quiet rfl rfl rfl
  · exact hF.quiet rfl rfl rfl
  · exact hF.quiet rfl rfl rfl

theorem assigned_followed {R : Fs} {a : Alloc} {st : ℤ} {ps : List Alloc} (hN : Numbered s) (hF : Follows s R)
    (hM : Matched s) (ha : a ∈ s.pending)
    (hs : assignChunkId env s.fs a.fid a.offset a.chunkId a.chunkVersion = (st, fs')) :
    Followed env' R (done { s with pending := ps } st fs' (.allocate a.fid a.offset a.chunkId a.chunkVersion)) := by
  obtain ⟨-, hoff, hal, hpos, -, -⟩ := hN.pending a ha
  have hF' : Follows { s with pending := ps } R := hF.idle rfl rfl
  refine followed_done hF' (fun hst => ?_) fun hst => ?_
  · rcases assignChunkId_spec hs with
      ⟨-, -, rfl⟩ | ⟨fa, -, ⟨c, -, -, -, rfl⟩ | ⟨c, -, -, h0, -⟩ | ⟨-, h0, -⟩⟩
    · exact ⟨rfl, rfl⟩
    · exact ⟨rfl, rfl⟩
    · exact absurd h0 hst
    · exact absurd h0 hst
  · subst hst
    have hsame : ∀ c, getChunk s.fs.leaves a.fid (chunkStartOffset a.offset) = some c →
        c.chunkId = a.chunkId := by
      intro c hc
      obtain ⟨hm, hid, ho⟩ := getChunk_spec hN.plain (chunkStartOffset_ne a.offset) hc
      exact hM a ha c hm hid (by rw [ho, chunkStartOffset_of_tmod hal])
    obtain ⟨l', hr, ht⟩ := redoAllocate_twin env' hF.twin (Finset.notMem_empty a.fid) (by omega) hal
      (by omega) hsame hs
    have hfid : fs'.fileID = s.fs.fileID := by
      rcases assignChunkId_spec hs with
        ⟨-, -, rfl⟩ | ⟨fa, -, ⟨c, -, -, -, rfl⟩ | ⟨c, -, -, -, rfl⟩ | ⟨-, -, rfl⟩⟩ <;> rfl
    refine ⟨_, hr, ht, hF.fileID.trans hfid.symm, fun c hc => ?_⟩
    rcases (assignChunkId_edits hN.plain hs).mem hc with hc | hc | ⟨c', hc', he⟩ | he
    · exact (hF.chunkID c hc).trans (le_max_left _ _)
    · exact hc.elim
    · obtain rfl := Meta.chunkinfo.inj he
      exact (hF.chunkID c' hc').trans (le_max_left _ _)
    · obtain rfl := Meta.chunkinfo.inj he
      exact le_max_right _ _

theorem layoutFailed_followed {R : Fs} {ps : List Alloc} (hN : Numbered s) (hF : Follows s R) :
    Followed env' R (changeIncarnationNumber { s with pending := ps }) := by
  obtain ⟨n, hn, he⟩ := changeIncarnationNumber_eq (s := { s with pending := ps }) hN.inc
  rw [he]
  refine followed_done (hF.idle rfl rfl) (fun h => absurd rfl h) fun _ => ?_
  exact ⟨{ R with chunkVersionInc := n }, by simp [redo, hn], hF.twin, hF.fileID, hF.chunkID⟩

theorem truncate_followed {R : Fs} {fid offset st a : ℤ} (hF : Follows s R) (hst : st ≤ 0)
    (hc : truncate env s.fs fid offset = some (st, a, fs')) :
    Followed env' R (done s st fs' (.truncate fid offset)) := by
  refine followed_done hF (fun hne => ?_) fun h0 => ?_
  · rcases truncate_spec hc with ⟨-, rfl⟩ | ⟨fa, -, -, -, ⟨-, h1, -⟩ | ⟨-, h0, -⟩⟩
    · exact ⟨rfl, rfl⟩
    · omega
    · exact absurd h0 hne
  · subst h0
    obtain ⟨l', a', ht, htw⟩ := truncate_twin env' hF.twin (Finset.notMem_empty fid) hc
    have hfid : fs'.fileID = s.fs.fileID := by
      rcases truncate_spec hc with ⟨-, rfl⟩ | ⟨fa, -, -, -, ⟨-, -, -, rfl⟩ | ⟨-, -, l₁, -, rfl⟩⟩ <;> rfl
    exact ⟨{ R with leaves := l' }, by simp [redo, ht], hF.edits (truncate_edits hc) hfid htw⟩

theorem setFattr_self {fid : ℤ} {f : MetaFattr} (h : getFattr l fid = some f) : setFattr l fid f = l := by
  rw [getFattr_eq] at h
  unfold setFattr
  induction l with
  | nil => rfl
  | cons x l ih =>
    rw [Leaves.update]
    split_ifs with hk
    · obtain ⟨g, rfl, hg⟩ := (eqv_fattr x fid).mp hk
      have hgf : g = f := by simpa [fattrs, Meta.fattr?, hg] using h
      rw [hgf]
    · have hx : x.fattr?.elim true (fun g => decide (g.id ≠ fid)) = true := by
        cases x with
        | fattr g => exact decide_eq_true fun hg => hk ((eqv_fattr _ fid).mpr ⟨g, rfl, hg⟩)
        | dentry d => rfl
        | chunkinfo c => rfl
      rw [ih]
      cases x with
      | fattr g => simpa [fattrs, Meta.fattr?, of_decide_eq_true hx] using h
      | dentry d => simpa [fattrs, Meta.fattr?] using h
      | chunkinfo c => simpa [fattrs, Meta.fattr?] using h

/-- The attributes that a truncation leaves when it asks for a chunk look the same. -/
theorem Follows.truncateAlloc {R : Fs} {fid offset st a : ℤ} (hF : Follows s R) (hst : 0 < st)
    (hc : truncate env s.fs fid offset = some (st, a, fs')) : Follows { s with fs := fs' } R := by
  rcases truncate_spec hc with ⟨h0, -⟩ | ⟨fa, hf, -, -, ⟨-, -, -, rfl⟩ | ⟨-, h0, -⟩⟩
  · omega
  · obtain ⟨fa', hf', hcore⟩ := hF.twin.same.getFattr_some (Finset.notMem_empty fid) hf
    have ht := hF.twin.setFattr (Finset.notMem_empty fid) (f := { fa with filesize := -1 }) (g := fa')
      (getFattr_some hf).2 hcore.symm
    rw [setFattr_self hf'] at ht
    exact ⟨ht, hF.fileID, fun c hcm => hF.chunkID c ((truncate_edits hc).edits.chunk hcm)⟩
  · omega

/-! ## Waiting allocations -/

theorem Matched.of_subset {s' : Sys} (h : Matched s) (hp : s'.pending ⊆ s.pending)
    (hc : ∀ c, .chunkinfo c ∈ s'.fs.leaves → .chunkinfo c ∈ s.fs.leaves) : Matched s' :=
  fun a ha c hm => h a (hp ha) c (hc c hm)

theorem Matched.edits (h : Matched s) (he : NameEdits s.fs fs') : Matched { s with fs := fs' } :=
  h.of_subset (fun _ ha => ha) fun _ hc => he.edits.chunk hc

/-- A new allocation has the id of the chunk that is there, or no chunk is there. -/
theorem startAllocate_matched {fid offset : ℤ} {reply : LeaseReply} {placed : Bool} (hN : Numbered s)
    (hM : Matched s) (ha : startAllocate s fid offset reply placed = some o) : Matched o.sys := by
  rcases startAllocate_spec ha with
    ⟨-, rfl⟩ | ⟨fa, -, -, hal, ⟨c, hc, ⟨st, -, rfl⟩ | ⟨-, rfl⟩ | ⟨-, rfl⟩⟩ | ⟨hc, ⟨-, rfl⟩ | ⟨-, rfl⟩⟩⟩
  · exact hM
  · exact hM
  · exact hM
  · obtain ⟨hm, hid, hoff⟩ := getChunk_spec hN.plain (chunkStartOffset_ne offset) hc
    rw [chunkStartOffset_of_tmod hal] at hoff
    intro a ham d hd hfid hdoff
    rcases List.mem_append.mp ham with ham | ham
    · exact hM a ham d hd hfid hdoff
    · obtain rfl := List.mem_singleton.mp ham
      -- each chunk has its own place
      have hdc : d = c := List.inj_on_of_nodup_map hN.places (mem_chunks.mpr hd) (mem_chunks.mpr hm)
        (Prod.ext (hfid.trans hid.symm) (hdoff.trans hoff.symm))
      rw [hdc]
  · intro a ham d hd hfid hdoff
    rcases List.mem_append.mp ham with ham | ham
    · exact hM a ham d hd hfid hdoff
    · obtain rfl := List.mem_singleton.mp ham
      rw [getChunk_eq, List.find?_eq_none] at hc
      refine absurd (decide_eq_true ⟨hfid, Or.inl ?_⟩) (hc d (mem_chunks.mpr hd))
      rw [hdoff, chunkStartOffset_of_tmod hal]
  · exact hM

theorem assigned_matched {i : ℕ} {a : Alloc} {st : ℤ} (hN : Numbered s) (hM : Matched s) (h1 : OneOutstanding s)
    (hi : s.pending[i]? = some a)
    (hs : assignChunkId env s.fs a.fid a.offset a.chunkId a.chunkVersion = (st, fs')) :
    Matched { s with fs := fs', pending := s.pending.eraseIdx i } := by
  intro b hb c hc hid hoff
  have hbm := List.mem_of_mem_eraseIdx hb
  rcases (assignChunkId_edits hN.plain hs).mem hc with hc | hc | ⟨c', hc', he⟩ | he
  · exact hM b hbm c hc hid hoff
  · exact hc.elim
  · obtain rfl := Meta.chunkinfo.inj he
    exact hM b hbm c' hc' hid hoff
  · obtain rfl := Meta.chunkinfo.inj he
    -- only the allocation that is done waited for this place
    obtain ⟨j, hj, hbj⟩ := List.mem_eraseIdx_iff_getElem?.mp hb
    refine absurd ?_ hj
    have hpi : (s.pending.map fun a => (a.fid, a.offset))[i]? = some (a.fid, a.offset) := by simp [hi]
    have hpj : (s.pending.map fun a => (a.fid, a.offset))[j]? = some (a.fid, a.offset) := by
      simp only [List.getElem?_map, hbj, Option.map_some]
      exact congrArg some (Prod.ext hid.symm hoff.symm)
    obtain ⟨hlt, -⟩ := List.getElem?_eq_some_iff.mp hpj
    exact (List.getElem?_inj hlt h1).mp (hpj.trans hpi.symm)

theorem handle_matched {req : Req} (hN : Numbered s) (hM : Matched s) (h1 : OneOutstanding s)
    (ho : Handled env s req o) : Matched o.sys := by
  cases ho with
  | refused => exact hM
  | create hd hc => exact hM.edits (create_edits hc)
  | mkdir hd hm => exact hM.edits (mkdir_edits hm)
  | remove hr => exact hM.edits (removeF_edits env 2 hr)
  | rmdir hr => exact hM.edits (rmdir_edits hr)
  | rename hr => exact hM.edits (renameWith_edits (removeF_edits env 2) hr)
  | allocate ha => exact startAllocate_matched hN hM ha
  | assigned hi ha => exact assigned_matched hN hM h1 hi ha
  | layoutFailed hi =>
    obtain ⟨n, -, he⟩ := changeIncarnationNumber_eq (s := { s with pending := s.pending.eraseIdx _ }) hN.inc
    rw [he]
    exact hM.of_subset (fun _ ha => List.mem_of_mem_eraseIdx ha) fun _ hc => hc
  | truncate hc => exact hM.edits (truncate_edits hc)
  | truncateAlloc hc hst ha =>
    have := startAllocate_matched (hN.edits (truncate_tidy hN.tidy hc) (truncate_edits hc))
      (hM.edits (truncate_edits hc)) ha
    exact this
  | changeFileReplication hc => exact hM.edits (changeFileReplication_edits hc)
  | changeIncarnationNumber =>
    obtain ⟨n, -, he⟩ := changeIncarnationNumber_eq (s := s) hN.inc
    rw [he]
    exact hM
  | cleanupDumpster hc => exact hM.edits (cleanupDumpster_edits hc)
  | emptyDumpsterDir hc => exact hM.edits (emptyDumpsterDir_edits hc)

/-! ## Runs -/

/-- A step is followed by the replay of its records. -/
theorem handle_follows {e : Event} {R : Fs} (hidle : ∀ c, env'.leased c = false) (hN : Numbered s)
    (hM : Matched s) (hF : Follows s R) (hC : NamedStep s e) (ho : Handled e.env s e.req o) :
    Followed env' R o := by
  have hb := hC.notBusy
  have hop := hC.op
  have hnames := fun n => hC.legal (n := n)
  generalize e.req = req at ho hb hop hnames
  cases ho with
  | refused => exact hF.quiet rfl rfl rfl
  | create hd hc => exact create_followed hN hF hidle hb hc
  | mkdir hd hm => exact mkdir_followed hN hF (hnames _ (by simp [Req.names])) hm
  | remove hr => exact remove_followed hF hidle hb hr
  | rmdir hr => exact rmdir_followed hF hr
  | rename hr => exact rename_followed hF hidle hb hr
  | allocate ha => exact allocate_followed hF ha
  | assigned hi ha => exact assigned_followed hN hF hM (List.mem_of_getElem? hi) ha
  | layoutFailed hi => exact layoutFailed_followed hN hF
  | truncate hc hst => exact truncate_followed hF hst hc
  | truncateAlloc hc hst ha =>
    have hF' := hF.truncateAlloc hst hc
    rcases startAllocate_fs ha with hfs | hfs
    · exact hF'.quiet (by rw [hfs]) (by rw [hfs]) rfl
    · exact hF'.quiet (by rw [hfs]; rfl) (by rw [hfs]; rfl) rfl
  | changeFileReplication hc => simp [Req.isTreeOp] at hop
  | changeIncarnationNumber => simp [Req.isTreeOp] at hop
  | cleanupDumpster hc => simp [Req.isTreeOp] at hop
  | emptyDumpsterDir hc => simp [Req.isTreeOp] at hop

/-- A run is followed by the replay of its log. -/
theorem Run.follows {s₀ : Sys} {es : List Event} {log : List LogRec} (hidle : ∀ c, env'.leased c = false)
    (hN : Numbered s₀) (hM : Matched s₀) (hr : Run NamedStep s₀ es s log) :
    Matched s ∧ (∀ r ∈ log, r.OnDisk) ∧ ∃ R, redoAll env' s₀.fs log = some (true, R) ∧ Follows s R := by
  induction hr with
  | nil =>
    refine ⟨hM, fun r hr => absurd hr List.not_mem_nil, s₀.fs, rfl, ⟨rfl, hN.ordered, hN.ordered⟩, rfl, ?_⟩
    exact fun c hc => (hN.chunk c hc).2.1
  | step hr hC ho ih =>
    obtain ⟨hM', hd, R, hR, hF⟩ := ih
    have hN' := hr.numbered (fun _ _ h => h.parsed) hN
    obtain ⟨R', hR', hF'⟩ := handle_follows hidle hN' hM' hF hC (handle_cases ho)
    refine ⟨handle_matched hN' hM' hC.one (handle_cases ho), ?_, R', ?_, hF'⟩
    · intro r hrm
      rcases List.mem_append.mp hrm with hrm | hrm
      · exact hd r hrm
      · exact handle_onDisk hN' hC.parsed (fun n => hC.legal) hC.fits ho r hrm
    · rw [redoAll_append hR]
      exact hR'

/-- The states that the server reaches with at most one allocation waiting for each place since the last time
that none was waiting. -/
def ServedOnce (s : Sys) : Prop :=
  ∃ s₁ es log, Served s₁ ∧ s₁.pending = [] ∧ Run (fun s e => e.req.Parsed ∧ OneOutstanding s) s₁ es s log

theorem ServedOnce.start (h : ServedOnce s) : Numbered s ∧ Matched s := by
  obtain ⟨s₁, es, log, hs, hp, hr⟩ := h
  refine hr.invariant (P := fun s => Numbered s ∧ Matched s) ⟨hs.numbered, ?_⟩ ?_
  · intro a ha
    rw [hp] at ha
    exact absurd ha List.not_mem_nil
  · rintro s e o ⟨hN, hM⟩ ⟨hpar, h1⟩ ho
    exact ⟨handle_numbered hN hpar (handle_cases ho), handle_matched hN hM h1 (handle_cases ho)⟩

/-- The file ids are not above the seed of the file ids, nor the chunk ids above theirs. -/
def Seeded (fs : Fs) : Prop :=
  (∀ d ∈ dentries fs.leaves, d.dir ≤ fs.fileID ∧ d.id ≤ fs.fileID) ∧ (∀ f ∈ fattrs fs.leaves, f.id ≤ fs.fileID) ∧
    ∀ c ∈ chunks fs.leaves, c.chunkId ≤ fs.chunkID

/-- **Replay reproduces a run without leases**, when every name is legal. -/
theorem replay_lease_free {s₀ s : Sys} {es : List Event} {log : List LogRec} (h₀ : ServedOnce s₀)
    (hr : Run NamedStep s₀ es s log) (now : Timeval) :
    ∃ R, playlog ⟨now, fun _ => false⟩ s₀.fs (logText log) = some (true, R) ∧
      dentries R.leaves = dentries s.fs.leaves ∧
      (fattrs R.leaves).map (fun f => (f.id, f.type)) = (fattrs s.fs.leaves).map (fun f => (f.id, f.type)) ∧
      chunks R.leaves = chunks s.fs.leaves ∧ Seeded R := by
  obtain ⟨hN, hM⟩ := h₀.start
  have hidle : ∀ c, (Env.mk now fun _ => false).leased c = false := fun _ => rfl
  obtain ⟨-, hd, R, hR, hF⟩ := hr.follows hidle hN hM
  have htidy := (hr.numbered (fun _ _ h => h.parsed) hN).tidy
  have hden : dentries R.leaves = dentries s.fs.leaves := by simpa using hF.twin.same.dentries.symm
  have hchk : chunks R.leaves = chunks s.fs.leaves := by simpa using hF.twin.same.chunks.symm
  have hfat : (fattrs R.leaves).map (fun f => (f.id, f.type)) =
      (fattrs s.fs.leaves).map (fun f => (f.id, f.type)) := by
    have := congrArg (List.map fun f : MetaFattr => (f.id, f.type)) hF.twin.same.fattrs
    simpa [MetaFattr.core, Function.comp_def] using this.symm
  refine ⟨R, (playlog_records hd).trans hR, hden, hfat, hchk, fun d hd => ?_, fun f hf => ?_, fun c hc => ?_⟩
  · rw [hden] at hd
    rw [hF.fileID]
    exact ⟨htidy.dir_le d (mem_dentries.mp hd), htidy.id_le d (mem_dentries.mp hd)⟩
  · have hm : (f.id, f.type) ∈ (fattrs s.fs.leaves).map fun f => (f.id, f.type) :=
      hfat ▸ List.mem_map_of_mem hf
    obtain ⟨g, hg, he⟩ := List.mem_map.mp hm
    obtain ⟨hid, -⟩ := Prod.mk.inj he
    rw [hF.fileID, ← hid]
    exact htidy.attr_le g (mem_fattrs.mp hg)
  · rw [hchk] at hc
    exact hF.chunkID c (mem_chunks.mp hc)

/-- A file is overwritten, grows by a truncation, and is moved over another one. -/
def overwriteRun : List Event :=
  [idle (.create ROOTFID ['f'] 1 true), idle (.allocate 3 0 .valid true), idle (.layoutDone 0 true),
    idle (.create ROOTFID ['f'] 1 false), idle (.truncate 4 CHUNKSIZE .valid true), idle (.layoutDone 0 true),
    idle (.truncate 4 CHUNKSIZE .valid true), idle (.create ROOTFID ['g'] 2 true), idle (.mkdir ROOTFID ['d']),
    idle (.rename ROOTFID ['f'] "/g".toList true), idle (.rmdir ROOTFID ['d'])]

theorem rootSys_servedOnce : ServedOnce rootSys :=
  ⟨rootSys, [], [], ⟨idleEnv, rootSys.fs, [], [], newTree_eq idleEnv, .nil⟩, rfl, .nil⟩

theorem overwrite_replay : ∃ s log R, exec NamedStep rootSys overwriteRun = some (s, log) ∧ log.length = 9 ∧
    playlog idleEnv rootSys.fs (logText log) = some (true, R) ∧ dentries R.leaves = dentries s.fs.leaves := by
  have hx : ((exec NamedStep rootSys overwriteRun).map fun r => r.2.length) = some 9 := by decide +kernel
  obtain ⟨⟨s, log⟩, hx, hlen⟩ := Option.map_eq_some_iff.mp hx
  obtain ⟨R, hR, hd, -⟩ := replay_lease_free rootSys_servedOnce (Run.of_exec hx) idleEnv.now
  exact ⟨s, log, R, hx, hlen, hR, hd⟩

/-- `mkdir` accepts the empty name in the root, and the reader rejects the line that it is logged as. -/
theorem emptyName_rejected : ∃ s log, exec LeaseFreeStep rootSys [idle (.mkdir ROOTFID [])] = some (s, log) ∧
    ∃ R, playlog idleEnv rootSys.fs (logText log) = some (false, R) := by
  have hx : ((exec LeaseFreeStep rootSys [idle (.mkdir ROOTFID [])]).map fun r =>
      (playlog idleEnv rootSys.fs (logText r.2)).map Prod.fst) = some (some false) := by decide +kernel
  obtain ⟨⟨s, log⟩, hx, hp⟩ := Option.map_eq_some_iff.mp hx
  obtain ⟨⟨b, R⟩, hR, rfl⟩ := Option.map_eq_some_iff.mp hp
  exact ⟨s, log, hx, R, hR⟩

end Kfs
