import Kfs.Fs.Keep
import Kfs.Server.Atomic

/-!
# The directory tree over runs of requests

* `DirTree`: every directory has its dot entries and one name, every file one name, and every directory is
  below the root;
* `Hierarchy.dirTree`: the invariant says so; `newTree_hier`: it holds of the tree of `new_tree`;
* `NsSound`: the requests that keep it; `misplacedRoot`, `movesDot`: the two kinds that do not;
* **`run_dirTree`**.
-/

namespace Kfs

open Lib Relation

variable {env : Env} {l : List Meta}

/-! ## Well-formedness -/

/-- The directory tree is well formed. -/
structure DirTree (l : List Meta) : Prop where
  attr : ∀ d ∈ dentries l, (fattrs l).countP (fun f => decide (f.id = d.id)) = 1
  names : ∀ dir, ((dents l dir).map MetaDentry.name).Nodup
  dot : ∀ f ∈ fattrs l, f.type = .dir →
    (dents l f.id).filter (fun d => decide (d.name = ['.'])) = [⟨f.id, ['.'], f.id⟩]
  parent : ∀ f ∈ fattrs l, f.type = .dir → ∃ d,
    (dentries l).filter (fun e => decide (e.id = f.id ∧ ¬ isDot e.name)) = [d] ∧
    (dents l f.id).filter (fun e => decide (e.name = ['.', '.'])) = [⟨f.id, ['.', '.'], d.dir⟩]
  file : ∀ f ∈ fattrs l, f.type = .file → (dentries l).countP (fun d => decide (d.id = f.id)) = 1
  climb : ∀ f ∈ fattrs l, f.type = .dir → ReflTransGen (up l) f.id ROOTFID
  descend : ∀ src, ∀ f ∈ fattrs l, f.type = .dir → (is_descendant l src f.id).isSome

theorem Uniq.fattrs_nodup (h : Uniq l) : (fattrs l).Nodup :=
  h.list_nodup.filterMap fun x y f hx hy => by
    cases x <;> cases y <;> simp_all [Meta.fattr?]

theorem Hierarchy.dirTree (h : Hierarchy l) : DirTree l where
  attr d hd := by
    obtain ⟨f, hf, hfi⟩ := h.has_attr d (mem_dentries.mp hd)
    rw [List.countP_eq_length_filter, filter_eq_singleton h.uniq.fattrs_nodup (mem_fattrs.mpr hf)
      (decide_eq_true hfi)]
    · rfl
    · intro g hg hgi
      exact h.uniq.eq_of_id (mem_fattrs.mp hg) hf ((of_decide_eq_true hgi).trans hfi.symm)
  names dir := by
    refine List.Nodup.map_on (fun d hd e he hn => ?_) (h.uniq.dentries_nodup.filter _)
    rw [mem_dents] at hd he
    exact h.uniq.eq_of_name hd.1 he.1 (hd.2.trans he.2.symm) hn
  dot f hf ht := by
    have hdm := h.dot f (mem_fattrs.mp hf) ht
    refine filter_eq_singleton (h.uniq.dentries_nodup.filter _) (by simp [hdm]) (by simp)
      fun e he hn => ?_
    rw [mem_dents] at he
    exact h.uniq.eq_of_name he.1 hdm he.2 (of_decide_eq_true hn)
  parent f hf ht := by
    obtain ⟨d, hd, hn, hi, hup⟩ := h.home f (mem_fattrs.mp hf)
    refine ⟨d, filter_eq_singleton h.uniq.dentries_nodup (mem_dentries.mpr hd)
      (decide_eq_true ⟨hi, hn⟩) fun e he hp => ?_,
      filter_eq_singleton (h.uniq.dentries_nodup.filter _) (by simpa [up] using hup ht) (by simp)
      fun e he hp => ?_⟩
    · obtain ⟨hei, hen⟩ := of_decide_eq_true hp
      exact h.home_eq e d (mem_dentries.mp he) hd hen hn (hei.trans hi.symm)
    · rw [mem_dents] at he
      exact h.uniq.eq_of_name he.1 (hup ht) he.2 (of_decide_eq_true hp)
  file f hf ht := by
    obtain ⟨d, hd, hn, hi, -⟩ := h.home f (mem_fattrs.mp hf)
    rw [List.countP_eq_length_filter, filter_eq_singleton h.uniq.dentries_nodup (mem_dentries.mpr hd)
      (decide_eq_true hi)]
    · rfl
    · intro e he hei
      have hem := mem_dentries.mp he
      have hei := of_decide_eq_true hei
      refine h.home_eq e d hem hd (fun hc => ?_) hn (hei.trans hi.symm)
      obtain ⟨g, hg, hgi, hgt⟩ := h.dot_dir hem hc
      rw [h.uniq.eq_of_id hg (mem_fattrs.mp hf) (hgi.trans hei), ht] at hgt
      exact absurd hgt (by decide)
  climb f hf ht := h.climb f (mem_fattrs.mp hf) ht
  descend src f hf ht := h.is_descendant_isSome src (mem_fattrs.mp hf) ht

/-! ## Runs -/

/-- The items of the tree of `new_tree`. -/
def rootLeaves (env : Env) : List Meta :=
  [.fattr (MetaFattr.new env .dir ROOTFID 1), .dentry ⟨ROOTFID, ['.', '.'], ROOTFID⟩,
    .dentry ⟨ROOTFID, ['.'], ROOTFID⟩, .dentry ⟨ROOTFID, ['/'], ROOTFID⟩]

theorem newTree_eq (env : Env) :
    newTree env = some ⟨rootLeaves env, ROOTFID, ROOTFID, 0, 1⟩ := by
  rfl

theorem newTree_hier {fs : Fs} (h : newTree env = some fs) : Hierarchy fs.leaves := by
  rw [newTree_eq] at h
  obtain rfl := Option.some.inj h
  have hd : ∀ {d : MetaDentry}, .dentry d ∈ rootLeaves env ↔ d = ⟨ROOTFID, ['.', '.'], ROOTFID⟩ ∨
      d = ⟨ROOTFID, ['.'], ROOTFID⟩ ∨ d = ⟨ROOTFID, ['/'], ROOTFID⟩ := by
    simp [rootLeaves]
  have hf : ∀ {f : MetaFattr}, .fattr f ∈ rootLeaves env ↔ f = MetaFattr.new env .dir ROOTFID 1 := by
    simp [rootLeaves]
  have hroot : ∀ d : MetaDentry, d = ⟨ROOTFID, ['.', '.'], ROOTFID⟩ ∨
      d = ⟨ROOTFID, ['.'], ROOTFID⟩ ∨ d = ⟨ROOTFID, ['/'], ROOTFID⟩ →
      d.dir = ROOTFID ∧ d.id = ROOTFID ∧ (isDot d.name ∨ d = ⟨ROOTFID, ['/'], ROOTFID⟩) := by
    rintro d (rfl | rfl | rfl)
    · exact ⟨rfl, rfl, Or.inl (Or.inr rfl)⟩
    · exact ⟨rfl, rfl, Or.inl (Or.inl rfl)⟩
    · exact ⟨rfl, rfl, Or.inr rfl⟩
  refine
    { uniq := ⟨by simp [rootLeaves, Meta.slot], by simp [rootLeaves, plain_dentry, plain_fattr]⟩
      in_dir := fun d hdm => ⟨_, hf.mpr rfl, (hroot d (hd.mp hdm)).1.symm, rfl⟩
      has_attr := fun d hdm => ⟨_, hf.mpr rfl, (hroot d (hd.mp hdm)).2.1.symm⟩
      type := fun f hfm => Or.inr (by rw [hf.mp hfm]; rfl)
      dot := fun f hfm _ => by rw [hf.mp hfm]; exact hd.mpr (Or.inr (Or.inl rfl))
      home := fun f hfm => ⟨⟨ROOTFID, ['/'], ROOTFID⟩, hd.mpr (Or.inr (Or.inr rfl)), by decide,
        by rw [hf.mp hfm]; rfl, fun _ => by rw [hf.mp hfm]; exact hd.mpr (Or.inl rfl)⟩
      home_eq := fun d e hdm hem hn hn' _ => ?_
      root := hd.mpr (Or.inr (Or.inr rfl))
      climb := fun f hfm _ => by rw [hf.mp hfm]; exact .refl }
  rw [(hroot d (hd.mp hdm)).2.2.resolve_left hn, (hroot e (hd.mp hem)).2.2.resolve_left hn']

/-- CREATE, MKDIR, REMOVE, RMDIR and RENAME. -/
def Req.isNamespace : Req → Bool
  | .create _ _ _ _ | .mkdir _ _ | .remove _ _ | .rmdir _ _ | .rename _ _ _ _ => true
  | _ => false

/-- A MKDIR of the root's name in another directory. -/
def misplacedRoot (l : List Meta) : Req → Bool
  | .mkdir dir name => decide (name = ['/'] ∧ dir ≠ ROOTFID) && is_dir l dir
  | _ => false

/-- A RENAME of a dot entry that passes the checks of `rename`. -/
def movesDot (worm : Bool) (l : List Meta) : Req → Bool
  | .rename dir oldname newname overwrite => !worm && decide (isDot oldname) &&
      match renameCheck l dir oldname newname overwrite with
      | some (.ok _) => true
      | _ => false
  | _ => false

/-- The requests of the name space that keep the directory tree. -/
def NsSound (s : Sys) (e : Event) : Prop :=
  e.req.isNamespace = true ∧ misplacedRoot s.fs.leaves e.req = false ∧
    movesDot e.worm s.fs.leaves e.req = false

instance (s : Sys) (e : Event) : Decidable (NsSound s e) := by unfold NsSound; infer_instance

/-- In WORM mode the dot entries cannot be renamed. -/
theorem handle_rename_dot {s : Sys} {o : Out} {dir : ℤ} {oldname newname : Str} {overwrite : Bool}
    (hn : isDot oldname) (ho : handle true env s (.rename dir oldname newname overwrite) = some o) :
    o = refuse s (-EPERM) := by
  have hw : isWormMutationAllowed oldname = false := by
    rcases hn with rfl | rfl <;> decide
  simp only [handle, wormForbids, if_true, hw, Bool.false_eq_true, not_false_eq_true,
    Option.some.injEq] at ho
  exact ho.symm

/-- **One step keeps the directory tree.** -/
theorem handle_hier {s : Sys} {e : Event} {o : Out} (htidy : Tidy s.fs) (h : Hierarchy s.fs.leaves)
    (hs : NsSound s e) (ho : handle e.worm e.env s e.req = some o) : Hierarchy o.sys.fs.leaves := by
  obtain ⟨worm, env, req⟩ := e
  cases req with
  | create dir name n exclusive =>
    cases handle_cases ho with
    | refused _ => exact h
    | create hd hc =>
      obtain ⟨f, hf, ht⟩ := is_dir_iff.mp hd
      obtain ⟨hfm, hfi⟩ := getFattr_some hf
      exact create_hier htidy h hfm hfi ht hc
  | mkdir dir name =>
    cases handle_cases ho with
    | refused _ => exact h
    | mkdir hd hm =>
      obtain ⟨f, hf, ht⟩ := is_dir_iff.mp hd
      obtain ⟨hfm, hfi⟩ := getFattr_some hf
      refine mkdir_hier h htidy hfm hfi ht (fun hn => ?_) hm
      by_contra hr
      simp [NsSound, misplacedRoot, hn, hr, hd] at hs
  | remove dir name =>
    cases handle_cases ho with
    | refused _ => exact h
    | remove hr => exact remove_hier htidy h hr
  | rmdir dir name =>
    cases handle_cases ho with
    | refused _ => exact h
    | rmdir hr => exact rmdir_hier h hr
  | rename dir oldname newname overwrite =>
    by_cases hw : worm = true ∧ isDot oldname
    · obtain ⟨rfl, hn⟩ := hw
      rw [handle_rename_dot hn ho]
      exact h
    · cases handle_cases ho with
      | refused _ => exact h
      | rename hr =>
        refine renameWith_hier (removeF_moves env 2) (removeF_atomic env 2) htidy h (fun hn p hp => ?_) hr
        have hnw : worm = false := by simpa using fun hc => hw ⟨hc, hn⟩
        simp [NsSound, movesDot, hn, hnw, renameCheck_iff.mpr hp] at hs
  | allocate _ _ _ _ | layoutDone _ _ | truncate _ _ _ _ | changeFileReplication _ _
  | changeIncarnationNumber | cleanupDumpster | emptyDumpsterDir => exact absurd hs.1 Bool.false_ne_true

/-- A run that meets the condition keeps the directory tree. -/
theorem run_hier {fs : Fs} {es : List Event} {s : Sys} {log : List LogRec}
    (h₀ : newTree env = some fs) (hr : Run NsSound ⟨fs, []⟩ es s log) : Hierarchy s.fs.leaves :=
  (hr.invariant (P := fun s => Tidy s.fs ∧ Hierarchy s.fs.leaves)
    ⟨newTree_tidy h₀, newTree_hier h₀⟩ fun _ _ _ h hs ho =>
      ⟨handle_tidy h.1 (handle_cases ho), handle_hier h.1 h.2 hs ho⟩).2

/-- **The directory tree stays well formed**: in every run of requests of the name space from the tree of
`new_tree` without a MKDIR of the root's name elsewhere and without a RENAME of a dot entry. -/
theorem run_dirTree {fs : Fs} {es : List Event} {s : Sys} {log : List LogRec}
    (h₀ : newTree env = some fs) (hr : Run NsSound ⟨fs, []⟩ es s log) : DirTree s.fs.leaves :=
  (run_hier h₀ hr).dirTree

/-- No chunk leased, at time 0. -/
def idleEnv : Env := ⟨⟨0, 0⟩, fun _ => false⟩

/-- The server with the tree of `new_tree`. -/
def rootSys : Sys := ⟨⟨rootLeaves idleEnv, ROOTFID, ROOTFID, 0, 1⟩, []⟩

def idle (req : Req) : Event := ⟨false, idleEnv, req⟩

/-- A directory, a file in it that is moved out of it, and the end of the directory. -/
def moveOutRun : List Event :=
  [idle (.mkdir ROOTFID ['d']), idle (.create 3 ['f'] 1 false),
    idle (.rename 3 ['f'] ['.', '.', '/', 'g'] false), idle (.rmdir ROOTFID ['d'])]

theorem moveOut_dirTree : ∃ s log, exec NsSound rootSys moveOutRun = some (s, log) ∧
    log.length = 4 ∧ DirTree s.fs.leaves := by
  have hx : ((exec NsSound rootSys moveOutRun).map fun r => r.2.length) = some 4 := by decide +kernel
  obtain ⟨⟨s, log⟩, hx, hlen⟩ := Option.map_eq_some_iff.mp hx
  exact ⟨s, log, hx, hlen, run_dirTree (newTree_eq idleEnv) (Run.of_exec hx)⟩

/-- A directory with the name of the root in another directory. -/
def slashRun : List Event := [idle (.mkdir ROOTFID ['d']), idle (.mkdir 3 ['/'])]

/-- A directory whose `"."` is moved to the root. -/
def dotRun : List Event := [idle (.mkdir ROOTFID ['d']), idle (.rename 3 ['.'] ['.', '.', '/', 'x'] false)]

/-- The directory tree is not well formed after these runs: after the first a directory has two entries
`"."`, after the second it has none. -/
theorem slash_dot_not_dirTree :
    (∃ s log, exec (fun _ e => e.req.isNamespace = true) rootSys slashRun = some (s, log) ∧
      ¬ DirTree s.fs.leaves) ∧
    ∃ s log, exec (fun _ e => e.req.isNamespace = true) rootSys dotRun = some (s, log) ∧
      ¬ DirTree s.fs.leaves := by
  constructor
  · have hx : ((exec (fun _ e => e.req.isNamespace = true) rootSys slashRun).map fun r =>
        decide ((dents r.1.fs.leaves 3).map MetaDentry.name).Nodup) = some false := by decide +kernel
    obtain ⟨⟨s, log⟩, hx, hn⟩ := Option.map_eq_some_iff.mp hx
    exact ⟨s, log, hx, fun h => of_decide_eq_false hn (h.names 3)⟩
  · have hx : ((exec (fun _ e => e.req.isNamespace = true) rootSys dotRun).map fun r =>
        ((fattrs r.1.fs.leaves).any fun f => decide (f.id = 3 ∧ f.type = .dir)) &&
        ((dents r.1.fs.leaves 3).filter fun d => decide (d.name = ['.'])).isEmpty) = some true := by
      decide +kernel
    obtain ⟨⟨s, log⟩, hx, hn⟩ := Option.map_eq_some_iff.mp hx
    refine ⟨s, log, hx, fun h => ?_⟩
    rw [Bool.and_eq_true, List.any_eq_true] at hn
    obtain ⟨⟨f, hf, hp⟩, hempty⟩ := hn
    obtain ⟨hid, ht⟩ := of_decide_eq_true hp
    have := h.dot f hf ht
    rw [hid, List.isEmpty_iff.mp hempty] at this
    simp at this

end Kfs
