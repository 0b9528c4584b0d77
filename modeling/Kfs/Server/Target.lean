import Kfs.Server.Namespace

/-!
# Where a renaming leads

* `walk`, `components`, `resolve`: what a path denotes, component by component;
* `renameTarget_slash`, `resolve_slash`: the cut at the last slash on both sides; `walk_eq_lookupComponents`;
* `CutWrong`, **`renameTarget_eq_resolve_iff`**: the paths for which the two differ.
-/

namespace Kfs

variable {env : Env} {l : List Meta} {dir parent : ℤ} {path u v name : Str}

/-! ## What a path denotes -/

/-- The attributes of what the names lead to, one after another, from `dir`. -/
def walk (l : List Meta) : ℤ → List Str → Option (Option MetaFattr)
  | dir, [] => some (getFattr l dir)
  | dir, c :: cs =>
    match lookup l dir c with
    | none => none
    | some none => some none
    | some (some fa) => walk l fa.id cs

def isAbsolute (path : Str) : Bool := decide (path.head? = some '/')

/-- The components `c₁, …, cₙ` of `/c₁/…/cₙ` and of `c₁/…/cₙ`. -/
def components (path : Str) : List Str := (if isAbsolute path then path.tail else path).splitOn '/'

/-- The destination with name `name` in the directory that a lookup has found. -/
def targetIn (name : Str) (found : Option (Option MetaFattr)) : Option (Except ℤ (ℤ × Str)) :=
  match found with
  | none => none
  | some none => some (.error (-ENOENT))
  | some (some fa) => if fa.type ≠ .dir then some (.error (-ENOTDIR)) else some (.ok (fa.id, name))

/-- The destination that a path denotes: its components but the last one are walked from the root when the
path is absolute, and from `parent` when it is relative. -/
def resolve (l : List Meta) (parent : ℤ) (path : Str) : Option (Except ℤ (ℤ × Str)) :=
  targetIn ((components path).getLastD [])
    (walk l (if isAbsolute path then ROOTFID else parent) (components path).dropLast)

theorem targetIn_eq_ok {x : Str} {found : Option (Option MetaFattr)}
    (h : targetIn name found = some (.ok (dir, x))) : ∃ fa, found = some (some fa) ∧ fa.id = dir := by
  rcases found with - | - | fa
  · exact absurd h (by simp [targetIn])
  · exact absurd h (by simp [targetIn])
  · simp only [targetIn] at h
    split_ifs at h
    · simp at h
    · simp only [Option.some.injEq, Except.ok.injEq, Prod.mk.injEq] at h
      exact ⟨fa, rfl, h.1⟩

/-! ## The cut at the last slash -/

theorem renameTarget_slash (hv : '/' ∉ v) :
    renameTarget l parent (u ++ '/' :: v) = targetIn v (lookupPath l parent u) := by
  unfold renameTarget
  rw [if_pos (by simp), splitPath_append hv]
  rcases lookupPath l parent u with - | - | fa <;> rfl

theorem renameTarget_no_slash (hv : '/' ∉ v) : renameTarget l parent v = some (.ok (parent, v)) := by
  unfold renameTarget
  rw [if_neg (by simpa using hv)]

theorem splitOn_slash (hv : '/' ∉ v) : (u ++ '/' :: v).splitOn '/' = u.splitOn '/' ++ [v] := by
  rw [List.splitOn_append_cons_self, List.splitOn_eq_singleton hv]

theorem resolve_relative (hu : isAbsolute (u ++ '/' :: v) = false) (hv : '/' ∉ v) :
    resolve l parent (u ++ '/' :: v) = targetIn v (walk l parent (u.splitOn '/')) := by
  simp [resolve, components, hu, splitOn_slash hv]

theorem resolve_slash (hv : '/' ∉ v) :
    resolve l parent ('/' :: (u ++ '/' :: v)) = targetIn v (walk l ROOTFID (u.splitOn '/')) := by
  simp [resolve, components, isAbsolute, splitOn_slash hv]

theorem resolve_root (hv : '/' ∉ v) : resolve l parent ('/' :: v) = targetIn v (some (getFattr l ROOTFID)) := by
  simp [resolve, components, isAbsolute, List.splitOn_eq_singleton hv, walk]

theorem resolve_no_slash (hv : '/' ∉ v) : resolve l parent v = targetIn v (some (getFattr l parent)) := by
  have ha : isAbsolute v = false := by
    rcases v with - | ⟨c, v⟩
    · rfl
    · simpa [isAbsolute] using fun h : c = '/' => hv (h ▸ List.mem_cons_self)
  simp [resolve, components, ha, List.splitOn_eq_singleton hv, walk]

/-- A path without a slash, or its parts before and after the last one. -/
theorem slash_cases (path : Str) : '/' ∉ path ∨ ∃ u v, path = u ++ '/' :: v ∧ '/' ∉ v := by
  by_cases h : '/' ∈ path
  · obtain ⟨u, v, hp, hv⟩ := List.eq_append_cons_of_mem (List.mem_reverse.mpr h)
    refine Or.inr ⟨v.reverse, u.reverse, ?_, by simpa using hv⟩
    simpa using congrArg List.reverse hp
  · exact Or.inl h

/-- The loop of `lookupPath` is the walk. -/
theorem lookupComponents_eq_walk (h : Uniq l) : ∀ {cs : List Str}, cs ≠ [] → ∀ dir,
    lookupComponents l dir cs = walk l dir cs
  | [], hc, _ => absurd rfl hc
  | [c], _, dir => by
    unfold lookupComponents walk
    rcases hl : lookup l dir c with - | - | fa
    · rfl
    · rfl
    · change _ = some (getFattr l fa.id)
      rw [h.getFattr_iff.mpr ⟨lookup_mem hl, rfl⟩]
  | c :: d :: cs, _, dir => by
    unfold lookupComponents walk
    rcases lookup l dir c with - | - | fa
    · rfl
    · rfl
    · exact lookupComponents_eq_walk h (List.cons_ne_nil d cs) fa.id

theorem lookupPath_absolute (h : Uniq l) (hu : u ≠ []) :
    lookupPath l parent ('/' :: u) = walk l ROOTFID (u.splitOn '/') := by
  rw [← lookupComponents_eq_walk h (List.splitOn_ne_nil '/' u)]
  simp [lookupPath, hu]

theorem lookupPath_relative (h : Uniq l) (hp : parent ≠ 0) (hu : u ≠ []) (ha : isAbsolute u = false) :
    lookupPath l parent u = walk l parent (u.splitOn '/') := by
  rw [← lookupComponents_eq_walk h (List.splitOn_ne_nil '/' u)]
  have ha' : u.head? ≠ some '/' := of_decide_eq_false ha
  simp [lookupPath, hu, ha', hp]

/-! ## The root as the destination -/

namespace Hierarchy

/-- The root has one name. -/
theorem eq_root (h : Hierarchy l) (hn : ¬ isDot name) {fa : MetaFattr} (hl : lookup l dir name = some (some fa))
    (hid : fa.id = ROOTFID) : dir = ROOTFID ∧ name = ['/'] := by
  have hd := (h.lookup_iff.mp hl).1
  have := h.home_eq _ _ hd h.root hn (by decide) hid
  simp only [MetaDentry.mk.injEq] at this
  exact ⟨this.1, this.2.1⟩

theorem getFattr_root (h : Hierarchy l) : ∃ fa, getFattr l ROOTFID = some fa ∧ fa.id = ROOTFID ∧ fa.type = .dir := by
  obtain ⟨fa, hm, hid, ht⟩ := h.root_dir
  exact ⟨fa, h.uniq.getFattr_iff.mpr ⟨hm, hid⟩, hid, ht⟩

theorem lookup_root (h : Hierarchy l) : lookup l ROOTFID ['/'] = some (getFattr l ROOTFID) := by
  obtain ⟨fa, hf, hid, -⟩ := h.getFattr_root
  rw [hf]
  exact h.lookup_iff.mpr ⟨hid ▸ h.root, (h.uniq.getFattr_iff.mp hf).1⟩

theorem targetIn_root (h : Hierarchy l) : targetIn name (some (getFattr l ROOTFID)) = some (.ok (ROOTFID, name)) := by
  obtain ⟨fa, hf, hid, ht⟩ := h.getFattr_root
  simp [targetIn, hf, ht, hid]

end Hierarchy

/-- The paths that the cut leads elsewhere: a name in the root, from another directory, and a name behind two
slashes, whose first component is empty. -/
def CutWrong (parent : ℤ) (path : Str) : Prop :=
  ∃ x, '/' ∉ x ∧ (path = '/' :: x ∧ parent ≠ ROOTFID ∨ path = '/' :: '/' :: x)

/-- **`rename` goes where the new path says** except for the two kinds of `CutWrong`. -/
theorem renameTarget_eq_resolve_iff (h : Hierarchy l) {f : MetaFattr} (hf : getFattr l parent = some f)
    (ht : f.type = .dir) (hp : parent ≠ 0) (path : Str) :
    renameTarget l parent path = resolve l parent path ↔ ¬ CutWrong parent path := by
  have hid := (h.uniq.getFattr_iff.mp hf).2
  rcases slash_cases path with hn | ⟨u, v, rfl, hv⟩
  · refine iff_of_true ?_ ?_
    · rw [renameTarget_no_slash hn, resolve_no_slash hn, hf]
      simp [targetIn, ht, hid]
    · rintro ⟨x, -, ⟨rfl, -⟩ | rfl⟩
      · exact hn List.mem_cons_self
      · exact hn List.mem_cons_self
  rw [renameTarget_slash hv]
  rcases u with - | ⟨c, u⟩
  · -- a name in the root: the directory part is empty and `lookupPath` takes it for a relative path
    have hl : lookupPath l parent [] = lookup l parent ['/'] := by simp [lookupPath, hp]
    rw [List.nil_append, hl, resolve_root hv, h.targetIn_root]
    rcases eq_or_ne parent ROOTFID with rfl | hr
    · refine iff_of_true (by rw [h.lookup_root, h.targetIn_root]) ?_
      rintro ⟨x, hx, ⟨-, hc⟩ | hc⟩
      · exact hc rfl
      · exact hv ((List.cons.inj hc).2 ▸ List.mem_cons_self)
    · refine iff_of_false (fun he => hr ?_) (not_not.mpr ⟨v, hv, Or.inl ⟨rfl, hr⟩⟩)
      obtain ⟨fa, hl, hfa⟩ := targetIn_eq_ok he
      exact (h.eq_root (by decide) hl hfa).1
  rcases eq_or_ne c '/' with rfl | hc
  · rcases u with - | ⟨d, u⟩
    · -- two slashes: the directory part is the name of the root
      have hl : lookupPath l parent ['/'] = lookup l ROOTFID ['/'] := by simp [lookupPath]
      refine iff_of_false (fun he => ?_) (not_not.mpr ⟨v, hv, Or.inr rfl⟩)
      rw [hl, h.lookup_root, h.targetIn_root, List.cons_append, resolve_slash hv] at he
      obtain ⟨fa, hw, hfa⟩ := targetIn_eq_ok he.symm
      rw [← lookupComponents_eq_walk h.uniq (List.splitOn_ne_nil '/' [])] at hw
      exact absurd (h.eq_root (by decide) hw hfa).2 (by simp)
    · refine iff_of_true ?_ ?_
      · rw [List.cons_append, resolve_slash hv, lookupPath_absolute h.uniq (by simp)]
      · rintro ⟨x, hx, ⟨he, -⟩ | he⟩
        · simp only [List.cons_append, List.cons.injEq, true_and] at he
          exact hx (he ▸ by simp)
        · simp only [List.cons_append, List.cons.injEq, true_and] at he
          exact hx (he.2 ▸ by simp)
  · have ha : ∀ w : Str, isAbsolute (c :: w) = false := fun w => by simpa [isAbsolute] using hc
    refine iff_of_true ?_ ?_
    · rw [resolve_relative (ha _) hv, lookupPath_relative h.uniq hp (by simp) (ha u)]
    · rintro ⟨x, -, ⟨he, -⟩ | he⟩
      · exact hc (List.cons.inj he).1
      · exact hc (List.cons.inj he).1

/-- A directory with a file in it. -/
def fileInDir : Option Sys :=
  (exec NsSound rootSys [idle (.mkdir ROOTFID ['d']), idle (.create 3 ['f'] 1 false)]).map Prod.fst

theorem fileInDir_hier {s : Sys} (h : fileInDir = some s) : Hierarchy s.fs.leaves := by
  obtain ⟨⟨s, log⟩, hx, rfl⟩ := Option.map_eq_some_iff.mp h
  exact run_hier (newTree_eq idleEnv) (Run.of_exec hx)

/-- The file is moved to the root by its relative path. -/
theorem rename_dotdot_resolved : ∃ s, fileInDir = some s ∧
    (renameTarget s.fs.leaves 3 ['.', '.', '/', 'x'] = resolve s.fs.leaves 3 ['.', '.', '/', 'x'] ↔
      ¬ CutWrong 3 ['.', '.', '/', 'x']) := by
  have hx : (fileInDir.map fun s => decide ((getFattr s.fs.leaves 3).map MetaFattr.type = some .dir)) =
      some true := by decide +kernel
  obtain ⟨s, hs, hd⟩ := Option.map_eq_some_iff.mp hx
  obtain ⟨f, hf, ht⟩ := Option.map_eq_some_iff.mp (of_decide_eq_true hd)
  exact ⟨s, hs, renameTarget_eq_resolve_iff (fileInDir_hier hs) hf ht (by decide) _⟩

/-- The file cannot be moved to the root by its absolute path: the path denotes a place in the root, and `rename`
finds no directory. -/
theorem rename_root_missed : ∃ s, fileInDir = some s ∧ Hierarchy s.fs.leaves ∧
    resolve s.fs.leaves 3 ['/', 'x'] = some (.ok (ROOTFID, ['x'])) ∧
    renameTarget s.fs.leaves 3 ['/', 'x'] = some (.error (-ENOENT)) ∧
    rename idleEnv s.fs 3 ['f'] ['/', 'x'] true = some (-ENOENT, s.fs) := by
  have hx : (fileInDir.map fun s =>
      decide (resolve s.fs.leaves 3 ['/', 'x'] = some (.ok (ROOTFID, ['x']))) &&
      decide (renameTarget s.fs.leaves 3 ['/', 'x'] = some (.error (-ENOENT))) &&
      decide (rename idleEnv s.fs 3 ['f'] ['/', 'x'] true = some (-ENOENT, s.fs))) = some true := by
    decide +kernel
  obtain ⟨s, hs, hd⟩ := Option.map_eq_some_iff.mp hx
  simp only [Bool.and_eq_true, decide_eq_true_eq] at hd
  exact ⟨s, hs, fileInDir_hier hs, hd.1.1, hd.1.2, hd.2⟩

end Kfs
