import Kfs.Fs.Read

/-!
# What the operations do

One statement for each operation of the name space: the ways in which it can return, and what it has
found and changed then. The other modules use these statements and not the definitions.

* `mkdir_spec`, `rmdir_spec`, `unlink_iff`;
* `RenamePlan.Checked`, `renameCheck_iff`: when `rename` gets past its checks; `renameCheck_error`;
* `relink_spec`, `renameWith_spec`; `moveToDumpsterWith_spec`, `removeF_spec`, `create_spec`.
-/

namespace Kfs

variable {env : Env} {fs fs' : Fs} {l l' : List Meta} {dir fid st : ℤ} {name : Str}

/-! ## Directories -/

theorem link_dot (env : Env) (l : List Meta) (dir : ℤ) {name : Str}
    (hn : name = ['.'] ∨ name = ['.', '.']) (t : FileType) (myID n : ℤ) :
    link env l dir name t myID n = some (Leaves.insert l (.dentry ⟨dir, name, myID⟩)) := by
  rcases hn with rfl | rfl <;> rfl

/-- What a successful `mkdir` does. -/
def Fs.mkdirAt (env : Env) (fs : Fs) (dir : ℤ) (dname : Str) (myID : ℤ) : Fs :=
  let l := Leaves.insert fs.leaves (.dentry ⟨dir, dname, myID⟩)
  let l := Leaves.insert l (.fattr (MetaFattr.new env .dir myID 1))
  let l := Leaves.insert l (.dentry ⟨myID, ['.'], myID⟩)
  { fs with leaves := Leaves.insert l (.dentry ⟨myID, ['.', '.'], dir⟩) }

/-- **`mkdir`** fails with nothing changed, or makes the directory at a new id, at the root's own id
for the name of the root, or at the id that replay gives. -/
theorem mkdir_spec {dname : Str} {newFid id : ℤ}
    (h : mkdir env fs dir dname newFid = some (st, id, fs')) :
    (st < 0 ∧ fs' = fs) ∨ (st = 0 ∧ lookup fs.leaves dir dname = some none ∧
      (¬ (legalname dname = false ∧ dir ≠ ROOTFID ∧ dname ≠ ['/'])) ∧
      ((newFid = 0 ∧ dname ≠ ['/'] ∧ id = fs.fileID + 1 ∧
          fs' = Fs.mkdirAt env { fs with fileID := fs.fileID + 1 } dir dname id) ∨
        (newFid = 0 ∧ dname = ['/'] ∧ id = dir ∧ fs' = Fs.mkdirAt env fs dir dname id) ∨
        (newFid ≠ 0 ∧ id = newFid ∧ fs' = Fs.mkdirAt env fs dir dname id))) := by
  unfold mkdir at h
  by_cases hname : ¬ legalname dname ∧ dir ≠ ROOTFID ∧ dname ≠ ['/']
  · rw [if_pos hname] at h
    obtain ⟨rfl, -, rfl⟩ : -EINVAL = st ∧ newFid = id ∧ fs = fs' := by simpa using h
    exact Or.inl ⟨by decide, rfl⟩
  · rw [if_neg hname] at h
    have hname' : ¬ (legalname dname = false ∧ dir ≠ ROOTFID ∧ dname ≠ ['/']) := by
      simpa using hname
    rcases hl : lookup fs.leaves dir dname with - | - | fa
    · simp [hl] at h
    · simp only [hl, link_dot env _ _ (Or.inl rfl), link_dot env _ _ (Or.inr rfl),
        Option.some.injEq, Prod.mk.injEq] at h
      obtain ⟨rfl, rfl, rfl⟩ := h
      refine Or.inr ⟨rfl, rfl, hname', ?_⟩
      by_cases h0 : newFid = 0
      · by_cases hs : dname = ['/']
        · exact Or.inr (Or.inl ⟨h0, hs, by simp [h0, hs], by simp [h0, hs, Fs.mkdirAt]⟩)
        · exact Or.inl ⟨h0, hs, by simp [h0, hs], by simp [h0, hs, Fs.mkdirAt]⟩
      · exact Or.inr (Or.inr ⟨h0, by simp [h0], by simp [h0, Fs.mkdirAt]⟩)
    · simp only [hl, Option.some.injEq, Prod.mk.injEq] at h
      obtain ⟨rfl, -, rfl⟩ := h
      exact Or.inl ⟨by decide, rfl⟩

@[simp] theorem unlink_save (l : List Meta) (dir : ℤ) (name : Str) (fa : MetaFattr) :
    unlink l dir name fa true = Leaves.delOk l (.dentry ⟨dir, name, fa.id⟩) := by
  simp [unlink]

theorem unlink_iff {fa : MetaFattr} : unlink l dir name fa false = some l' ↔
    ∃ l₁, Leaves.delOk l (.dentry ⟨dir, name, fa.id⟩) = some l₁ ∧
      Leaves.delOk l₁ (.fattr fa) = some l' := by
  simp [unlink, Option.bind_eq_some_iff]

/-- What a successful `rmdir` has found and done. -/
structure RmdirDone (fs : Fs) (dir : ℤ) (dname : Str) (fa : MetaFattr) (l' : List Meta) : Prop where
  found : lookup fs.leaves dir dname = some (some fa)
  type : fa.type = .dir
  not_dumpster : ¬ (dir = ROOTFID ∧ dname = DUMPSTERDIR)
  not_dot : dname ≠ ['.'] ∧ dname ≠ ['.', '.']
  empty : emptydir fs.leaves fa.id = some true
  done : ∃ l₁ l₂ l₃, Leaves.delOk fs.leaves (.dentry ⟨fa.id, ['.'], fa.id⟩) = some l₁ ∧
    Leaves.delOk l₁ (.dentry ⟨fa.id, ['.', '.'], fa.id⟩) = some l₂ ∧
    Leaves.delOk l₂ (.dentry ⟨dir, dname, fa.id⟩) = some l₃ ∧
    Leaves.delOk l₃ (.fattr fa) = some l'

theorem rmdir_spec {dname : Str} (h : rmdir fs dir dname = some (st, fs')) :
    (st < 0 ∧ fs' = fs) ∨
      (st = 0 ∧ ∃ fa l', RmdirDone fs dir dname fa l' ∧ fs' = { fs with leaves := l' }) := by
  unfold rmdir at h
  rcases hl : lookup fs.leaves dir dname with - | fa
  · simp [hl] at h
  simp only [hl] at h
  by_cases hd : dir = ROOTFID ∧ dname = DUMPSTERDIR
  · rw [if_pos hd] at h
    obtain ⟨rfl, rfl⟩ : -EPERM = st ∧ fs = fs' := by simpa using h
    exact Or.inl ⟨by decide, rfl⟩
  rw [if_neg hd] at h
  rcases fa with - | fa
  · obtain ⟨rfl, rfl⟩ : -ENOENT = st ∧ fs = fs' := by simpa using h
    exact Or.inl ⟨by decide, rfl⟩
  by_cases ht : fa.type = .dir
  swap
  · obtain ⟨rfl, rfl⟩ : -ENOTDIR = st ∧ fs = fs' := by simpa [ht] using h
    exact Or.inl ⟨by decide, rfl⟩
  by_cases hdot : dname = ['.'] ∨ dname = ['.', '.']
  · obtain ⟨rfl, rfl⟩ : -EPERM = st ∧ fs = fs' := by simpa [ht, hdot] using h
    exact Or.inl ⟨by decide, rfl⟩
  simp only [ne_eq, ht, not_true_eq_false, if_false, hdot] at h
  rcases he : emptydir fs.leaves fa.id with - | - | -
  · simp [he] at h
  · obtain ⟨rfl, rfl⟩ : -ENOTEMPTY = st ∧ fs = fs' := by simpa [he] using h
    exact Or.inl ⟨by decide, rfl⟩
  · simp only [he, Option.bind_eq_bind, Option.bind_some, if_true, unlink_save,
      Option.bind_eq_some_iff, unlink_iff, Option.pure_def, Option.some.injEq, Prod.mk.injEq] at h
    obtain ⟨l₁, h₁, l₂, h₂, l', ⟨l₃, h₃, h₄⟩, rfl, rfl⟩ := h
    exact Or.inr ⟨rfl, fa, l', ⟨hl, ht, hd, not_or.mp hdot, he, l₁, l₂, l₃, h₁, h₂, h₃, h₄⟩,
      rfl⟩

/-! ## Renaming -/

/-- What `rename` has found when it gets past its checks. -/
structure RenamePlan.Checked (l : List Meta) (parent : ℤ) (oldname newname : Str) (overwrite : Bool)
    (p : RenamePlan) : Prop where
  src : getDentry l parent oldname = some (some p.src)
  target : renameTarget l parent newname = some (.ok (p.ddir, p.dname))
  legal : legalname p.dname = true
  ne : ¬ (p.ddir = parent ∧ p.dname = oldname)
  found : lookup l parent oldname = some (some p.sfattr)
  dst : ∃ dfattr, lookup l p.ddir p.dname = some dfattr ∧ p.dexists = dfattr.isSome ∧
    ∀ d, dfattr = some d → overwrite = true ∧ d.type = p.sfattr.type ∧
      (p.sfattr.type = .dir → emptydir l d.id = some true)
  loop : p.sfattr.type = .dir → is_descendant l p.sfattr.id p.ddir = some false

section

variable {parent : ℤ} {oldname newname : Str} {overwrite : Bool} {p : RenamePlan}

theorem renameConflict_iff {src : MetaDentry} {sfattr : MetaFattr} {ddir : ℤ} {dname : Str}
    {dfattr : Option MetaFattr} :
    renameConflict l src sfattr ddir dname dfattr overwrite = some (.ok p) ↔
      p = ⟨src, sfattr, ddir, dname, dfattr.isSome⟩ ∧
      (∀ d, dfattr = some d → overwrite = true ∧ d.type = sfattr.type ∧
        (sfattr.type = .dir → emptydir l d.id = some true)) ∧
      (sfattr.type = .dir → is_descendant l sfattr.id ddir = some false) := by
  unfold renameConflict
  have hloop : renameLoop l sfattr ddir = some false ↔
      (sfattr.type = .dir → is_descendant l sfattr.id ddir = some false) := by
    unfold renameLoop
    split_ifs with hd <;> simp [hd]
  rcases dfattr with - | d
  · simp only [Option.isSome_none, targetFull, Option.any_none, Bool.false_eq_true, and_false,
      if_false, reduceCtorEq, false_implies, implies_true, true_and, ← hloop]
    rcases renameLoop l sfattr ddir with - | - | - <;> simp [eq_comm]
  · have hfull : targetFull l sfattr.type (some d) = some false ↔
        (sfattr.type = .dir → emptydir l d.id = some true) := by
      unfold targetFull
      split_ifs with hd <;> simp [hd]
    cases overwrite
    · simp
    by_cases hty : sfattr.type = d.type
    swap
    · simp [hty, Ne.symm hty]
    simp only [Option.isSome_some, not_true_eq_false, false_and, if_false, Option.any_some, ne_eq,
      hty, decide_false, Bool.false_eq_true, Option.some.injEq, forall_eq', true_and]
    rw [← hty, ← hfull, ← hloop]
    rcases targetFull l sfattr.type (some d) with - | - | - <;>
      rcases renameLoop l sfattr ddir with - | - | - <;> simp [eq_comm]

theorem renameCheck_iff : renameCheck l parent oldname newname overwrite = some (.ok p) ↔
    p.Checked l parent oldname newname overwrite := by
  unfold renameCheck
  constructor
  · intro h
    rcases hs : getDentry l parent oldname with - | - | src
    · simp [hs] at h
    · simp [hs] at h
    rcases ht : renameTarget l parent newname with - | status | ⟨ddir, dname⟩
    · simp [hs, ht] at h
    · simp [hs, ht] at h
    simp only [hs, ht] at h
    by_cases hn : legalname dname = true
    swap
    · simp [hn] at h
    by_cases hne : ddir = parent ∧ dname = oldname
    · rw [if_neg (not_not.mpr hn), if_pos hne] at h
      simp at h
    simp only [hn, not_true_eq_false, if_false, hne] at h
    rcases hf : lookup l parent oldname with - | - | sfattr
    · simp [hf] at h
    · simp [hf] at h
    rcases hd : lookup l ddir dname with - | dfattr
    · simp [hf, hd] at h
    simp only [hf, hd] at h
    obtain ⟨rfl, how, hloop⟩ := renameConflict_iff.mp h
    exact ⟨hs, ht, hn, hne, hf, ⟨dfattr, hd, rfl, how⟩, hloop⟩
  · rintro ⟨hs, ht, hn, hne, hf, ⟨dfattr, hd, hex, hds⟩, hloop⟩
    simp only [hs, ht, hn, hne, hf, hd, not_true_eq_false, if_false]
    exact renameConflict_iff.mpr ⟨by rw [← hex], hds, hloop⟩

theorem renameTarget_error_ne (h : renameTarget l parent newname = some (.error st)) : st ≠ 0 := by
  unfold renameTarget at h
  split_ifs at h
  · rcases hl : lookupPath l parent (splitPath newname).1 with - | - | f
    · simp [hl] at h
    · obtain rfl : -ENOENT = st := by simpa [hl] using h
      decide
    · by_cases ht : f.type = .dir
      · simp [hl, ht] at h
      · obtain rfl : -ENOTDIR = st := by simpa [hl, ht] using h
        decide
  · simp at h

theorem renameConflict_error_ne {src : MetaDentry} {sfattr : MetaFattr} {ddir : ℤ} {dname : Str}
    {dfattr : Option MetaFattr}
    (h : renameConflict l src sfattr ddir dname dfattr overwrite = some (.error st)) : st ≠ 0 := by
  unfold renameConflict at h
  split_ifs at h
  · obtain rfl : -EEXIST = st := by simpa using h
    decide
  · obtain rfl : -ENOTDIR = st := by simpa using h
    decide
  · obtain rfl : -EISDIR = st := by simpa using h
    decide
  · rcases hf : targetFull l sfattr.type dfattr with - | - | -
    · simp [hf] at h
    · rcases hl : renameLoop l sfattr ddir with - | - | -
      · simp [hf, hl] at h
      · simp [hf, hl] at h
      · obtain rfl : -EINVAL = st := by simpa [hf, hl] using h
        decide
    · obtain rfl : -ENOTEMPTY = st := by simpa [hf] using h
      decide

/-- `rename` returns 0 without doing anything only for a renaming to the same name. -/
theorem renameCheck_zero_iff : renameCheck l parent oldname newname overwrite = some (.error 0) ↔
    (∃ d, getDentry l parent oldname = some (some d)) ∧
      renameTarget l parent newname = some (.ok (parent, oldname)) ∧ legalname oldname = true := by
  unfold renameCheck
  constructor
  · intro h
    rcases hs : getDentry l parent oldname with - | - | src
    · simp [hs] at h
    · simp [hs, ENOENT] at h
    rcases ht : renameTarget l parent newname with - | status | ⟨ddir, dname⟩
    · simp [hs, ht] at h
    · obtain rfl : status = 0 := by simpa [hs, ht] using h
      exact absurd rfl (renameTarget_error_ne ht)
    simp only [hs, ht] at h
    by_cases hn : legalname dname = true
    swap
    · simp [hn, EINVAL] at h
    by_cases hne : ddir = parent ∧ dname = oldname
    · obtain ⟨rfl, rfl⟩ := hne
      exact ⟨⟨src, rfl⟩, rfl, hn⟩
    simp only [hn, not_true_eq_false, if_false, hne] at h
    split at h
    · exact absurd rfl (renameConflict_error_ne h)
    · simp at h
  · rintro ⟨⟨d, hd⟩, ht, hn⟩
    simp [hd, ht, hn]

/-- What the end of `rename` does to the sequence. -/
theorem relink_spec (h : relink env l p = some l') : .dentry p.src ∈ l ∧
    if p.sfattr.type = .dir then .fattr p.sfattr ∈ l ∧
      ∃ l₁ l₂, Leaves.delOk l (.dentry ⟨p.src.id, ['.', '.'], p.sfattr.id⟩) = some l₁ ∧
        Leaves.delOk l₁ (.dentry p.src) = some l₂ ∧
        l' = Leaves.insert (Leaves.insert l₂ (.dentry ⟨p.ddir, p.dname, p.src.id⟩))
          (.dentry ⟨p.src.id, ['.', '.'], p.ddir⟩)
    else ∃ l₂, Leaves.delOk l (.dentry p.src) = some l₂ ∧
      l' = Leaves.insert l₂ (.dentry ⟨p.ddir, p.dname, p.src.id⟩) := by
  unfold relink at h
  by_cases hp : .dentry p.src ∈ l ∧ (p.sfattr.type = .dir → .fattr p.sfattr ∈ l)
  swap
  · rw [if_neg hp] at h
    simp at h
  rw [if_pos hp] at h
  refine ⟨hp.1, ?_⟩
  by_cases hdir : p.sfattr.type = .dir
  · simp only [hdir, if_true, unlink_save, Option.bind_eq_bind, Option.bind_eq_some_iff,
      link_dot env _ _ (Or.inr rfl), Option.some.injEq] at h ⊢
    obtain ⟨l₁, h₁, l₂, h₂, rfl⟩ := h
    exact ⟨hp.2 hdir, l₁, l₂, h₁, h₂, rfl⟩
  · simp only [hdir, if_false, Option.bind_eq_bind, Option.bind_some, Option.bind_eq_some_iff,
      Option.some.injEq] at h ⊢
    obtain ⟨l₂, h₂, rfl⟩ := h
    exact ⟨l₂, h₂, rfl⟩

/-- **`rename`** fails in its checks, or in the removal of its target, or links the source again. -/
theorem renameWith_spec {rm : Fs → ℤ → Str → Option (ℤ × Fs)}
    (h : renameWith rm env fs parent oldname newname overwrite = some (st, fs')) :
    (renameCheck fs.leaves parent oldname newname overwrite = some (.error st) ∧ fs' = fs) ∨
      ∃ p, p.Checked fs.leaves parent oldname newname overwrite ∧
        ((st ≠ 0 ∧ clearTarget rm fs p = some (st, fs')) ∨
          (st = 0 ∧ ∃ fs₁ l', clearTarget rm fs p = some (0, fs₁) ∧
            relink env fs₁.leaves p = some l' ∧ fs' = { fs₁ with leaves := l' })) := by
  unfold renameWith at h
  rcases hc : renameCheck fs.leaves parent oldname newname overwrite with - | status | p
  · simp [hc] at h
  · obtain ⟨rfl, rfl⟩ : status = st ∧ fs = fs' := by simpa [hc] using h
    exact Or.inl ⟨rfl, rfl⟩
  refine Or.inr ⟨p, renameCheck_iff.mp hc, ?_⟩
  simp only [hc] at h
  rcases hr : clearTarget rm fs p with - | ⟨status, fs₁⟩
  · simp [hr] at h
  simp only [hr] at h
  by_cases h0 : status = 0
  · simp only [h0, ne_eq, not_true_eq_false, if_false, Option.map_eq_some_iff, Prod.mk.injEq] at h
    obtain ⟨l', hl', rfl, rfl⟩ := h
    exact Or.inr ⟨rfl, fs₁, l', by rw [h0], hl', rfl⟩
  · obtain ⟨rfl, rfl⟩ : status = st ∧ fs₁ = fs' := by simpa [h0] using h
    exact Or.inl ⟨h0, rfl⟩

end

/-! ## Files -/

/-- Either the dumpster is there, or it has just been made. -/
theorem getDumpster_spec {fa : MetaFattr} (h : getDumpster env fs = some (fa, fs')) :
    (lookup fs.leaves ROOTFID DUMPSTERDIR = some (some fa) ∧ fs' = fs) ∨
      (lookup fs.leaves ROOTFID DUMPSTERDIR = some none ∧
        fs' = Fs.mkdirAt env { fs with fileID := fs.fileID + 1 } ROOTFID DUMPSTERDIR (fs.fileID + 1) ∧
        lookup fs'.leaves ROOTFID DUMPSTERDIR = some (some fa)) := by
  unfold getDumpster at h
  rcases hl : lookup fs.leaves ROOTFID DUMPSTERDIR with - | - | fa'
  · simp [hl] at h
  · simp only [hl, Option.bind_eq_bind, Option.bind_some, Option.bind_eq_some_iff, makeDumpsterDir,
      Option.map_eq_some_iff, Option.pure_def, Option.some.injEq, Prod.mk.injEq] at h
    obtain ⟨_, ⟨⟨st, id, fs₁⟩, hm, rfl⟩, _, hl', _, rfl, rfl, rfl⟩ := h
    rcases mkdir_spec hm with ⟨hst, rfl⟩ | ⟨-, -, -, ⟨-, -, rfl, rfl⟩ | ⟨-, hs, -⟩ | ⟨h0, -⟩⟩
    · simp only at hl'
      rw [hl] at hl'
      simp at hl'
    · exact Or.inr ⟨rfl, rfl, hl'⟩
    · exact absurd hs (by decide)
    · exact absurd rfl h0
  · obtain ⟨rfl, rfl⟩ : fa' = fa ∧ fs = fs' := by simpa [hl] using h
    exact Or.inl ⟨rfl, rfl⟩

theorem moveToDumpsterWith_spec {rm : Fs → ℤ → Str → Option (ℤ × Fs)}
    (h : moveToDumpsterWith rm env fs dir name = some (st, fs')) :
    ∃ fa fs₁, getDumpster env fs = some (fa, fs₁) ∧
      ((fa.id = dir ∧ st = -EEXIST ∧ fs' = fs₁) ∨
        (fa.id ≠ dir ∧ renameWith rm env { fs₁ with counter := fs₁.counter + 1 } dir name
          (tempname name fs₁.counter) true = some (st, fs'))) := by
  unfold moveToDumpsterWith at h
  rcases hg : getDumpster env fs with - | ⟨fa, fs₁⟩
  · simp [hg] at h
  refine ⟨fa, fs₁, rfl, ?_⟩
  simp only [hg, Option.bind_eq_bind, Option.bind_some, Option.pure_def] at h
  by_cases hd : fa.id = dir
  · obtain ⟨rfl, rfl⟩ : -EEXIST = st ∧ fs₁ = fs' := by simpa [hd] using h
    exact Or.inl ⟨hd, rfl, rfl⟩
  · rw [if_neg hd] at h
    exact Or.inr ⟨hd, h⟩

/-- **`remove`** fails with nothing changed, or moves the file to the dumpster because one of its chunks
is leased, or removes the chunks, the entry and the attributes. -/
theorem removeF_spec {fuel : ℕ} (h : removeF (fuel + 1) env fs dir name = some (st, fs')) :
    (st < 0 ∧ fs' = fs) ∨ ∃ fa, lookup fs.leaves dir name = some (some fa) ∧ fa.type = .file ∧
      (fa.chunkcount > 0 → fa.chunkcount = (getalloc fs.leaves fa.id).length) ∧
      ((fa.chunkcount > 0 ∧ (∃ c ∈ getalloc fs.leaves fa.id, env.leased c.chunkId = true) ∧
          moveToDumpsterWith (removeF fuel env) env fs dir name = some (st, fs')) ∨
        (¬ (fa.chunkcount > 0 ∧ ∃ c ∈ getalloc fs.leaves fa.id, env.leased c.chunkId = true) ∧
          st = 0 ∧ ∃ l₁ l',
            dropChunks fs.leaves fa (getalloc fs.leaves fa.id) = some l₁ ∧
            unlink l₁ dir name fa false = some l' ∧ fs' = { fs with leaves := l' })) := by
  unfold removeF at h
  rcases hl : lookup fs.leaves dir name with - | - | fa
  · simp [hl] at h
  · obtain ⟨rfl, rfl⟩ : -ENOENT = st ∧ fs = fs' := by simpa [hl] using h
    exact Or.inl ⟨by decide, rfl⟩
  simp only [hl, Option.bind_eq_bind, Option.bind_some, Option.pure_def] at h
  by_cases ht : fa.type = .file
  swap
  · obtain ⟨rfl, rfl⟩ : -EISDIR = st ∧ fs = fs' := by simpa [ht] using h
    exact Or.inl ⟨by decide, rfl⟩
  simp only [ne_eq, ht, not_true_eq_false, if_false] at h
  by_cases hcc : fa.chunkcount > 0 ∧ ¬ fa.chunkcount = (getalloc fs.leaves fa.id).length
  · rw [if_pos hcc] at h
    simp at h
  rw [if_neg hcc] at h
  refine Or.inr ⟨fa, rfl, ht, fun hp => by_contra fun hne => hcc ⟨hp, hne⟩, ?_⟩
  by_cases hb : fa.chunkcount > 0 ∧ ∃ c ∈ getalloc fs.leaves fa.id, env.leased c.chunkId = true
  · rw [if_pos ⟨hb.1, List.any_eq_true.mpr hb.2⟩] at h
    exact Or.inl ⟨hb.1, hb.2, h⟩
  · rw [if_neg fun hc => hb ⟨hc.1, List.any_eq_true.mp hc.2⟩] at h
    simp only [Option.bind_eq_some_iff, Option.some.injEq, Prod.mk.injEq] at h
    obtain ⟨l₁, h₁, l', h₂, rfl, rfl⟩ := h
    exact Or.inr ⟨hb, rfl, l₁, l', h₁, h₂, rfl⟩

/-- **`create`** fails with nothing changed, or passes a status of `remove` on, or links a new file. -/
theorem create_spec {newFid id n : ℤ} {exclusive : Bool}
    (h : create env fs dir name newFid n exclusive = some (st, id, fs')) :
    (st < 0 ∧ fs' = fs) ∨ (legalname name = true ∧ 0 < n ∧ ∃ fa, lookup fs.leaves dir name = some fa ∧
      (∀ f, fa = some f → f.type = .file ∧ exclusive = false) ∧ ∃ st₁ fs₁,
        removeOld env fs dir name fa = some (st₁, fs₁) ∧
        ((st₁ = -EBUSY ∧ st = st₁ ∧ fs' = fs₁) ∨ (st₁ = 0 ∧ st = 0 ∧
          id = (if newFid = 0 then fs₁.fileID + 1 else newFid) ∧ ∃ l',
          link env fs₁.leaves dir name .file id n = some l' ∧
          fs' = { fs₁ with leaves := l', fileID := if newFid = 0 then fs₁.fileID + 1 else fs₁.fileID }))) := by
  unfold create at h
  by_cases hn : legalname name = true
  swap
  · obtain ⟨rfl, -, rfl⟩ : -EINVAL = st ∧ newFid = id ∧ fs = fs' := by simpa [hn] using h
    exact Or.inl ⟨by decide, rfl⟩
  by_cases hr : n ≤ 0
  · obtain ⟨rfl, -, rfl⟩ : -EINVAL = st ∧ newFid = id ∧ fs = fs' := by simpa [hn, hr] using h
    exact Or.inl ⟨by decide, rfl⟩
  simp only [hn, not_true_eq_false, if_false, hr] at h
  rcases hl : lookup fs.leaves dir name with - | fa
  · simp [hl] at h
  simp only [hl, Option.bind_eq_bind, Option.bind_some, Option.pure_def] at h
  by_cases ht : (fa.any fun fa => decide (fa.type ≠ .file)) = true
  · rw [if_pos ht] at h
    obtain ⟨rfl, -, rfl⟩ : -EISDIR = st ∧ newFid = id ∧ fs = fs' := by simpa using h
    exact Or.inl ⟨by decide, rfl⟩
  rw [if_neg ht] at h
  by_cases hx : fa.isSome = true ∧ exclusive = true
  · rw [if_pos hx] at h
    obtain ⟨rfl, -, rfl⟩ : -EEXIST = st ∧ newFid = id ∧ fs = fs' := by simpa using h
    exact Or.inl ⟨by decide, rfl⟩
  rw [if_neg hx] at h
  refine Or.inr ⟨hn, by omega, fa, rfl, ?_, ?_⟩
  · rintro f rfl
    simpa using And.intro ht hx
  simp only [Option.bind_eq_some_iff, Prod.exists] at h
  obtain ⟨st₁, fs₁, h₁, h⟩ := h
  refine ⟨st₁, fs₁, h₁, ?_⟩
  by_cases hb : st₁ = -EBUSY
  · rw [if_pos hb] at h
    obtain ⟨rfl, -, rfl⟩ : st₁ = st ∧ newFid = id ∧ fs₁ = fs' := by simpa using h
    exact Or.inl ⟨hb, rfl, rfl⟩
  rw [if_neg hb] at h
  by_cases h0 : st₁ = 0
  swap
  · rw [if_pos h0] at h
    simp at h
  rw [if_neg (not_not.mpr h0)] at h
  right
  by_cases hf : newFid = 0
  · simp only [hf, if_true, Option.bind_eq_some_iff, Option.some.injEq, Prod.mk.injEq] at h ⊢
    obtain ⟨l', hl', rfl, rfl, rfl⟩ := h
    exact ⟨h0, rfl, rfl, l', hl', rfl⟩
  · simp only [hf, if_false, Option.bind_eq_some_iff, Option.some.injEq, Prod.mk.injEq] at h ⊢
    obtain ⟨l', hl', rfl, rfl, rfl⟩ := h
    exact ⟨h0, rfl, rfl, l', hl', rfl⟩

/-! ## Chunks -/

/-- Overwrite the attributes of `fid`. -/
def setFattr (l : List Meta) (fid : ℤ) (fa : MetaFattr) : List Meta :=
  Leaves.update l ⟨.fattr, fid, 0⟩ fun _ => .fattr fa

/-- The attributes of a file after a chunk has been linked to it. -/
def MetaFattr.addChunk (env : Env) (fa : MetaFattr) : MetaFattr :=
  { fa with chunkcount := fa.chunkcount + 1, filesize := -1, mtime := env.now }

/-- The item with one more chunk, when it is an item of attributes. -/
def Meta.addChunk (env : Env) : Meta → Meta
  | .fattr fa => .fattr (fa.addChunk env)
  | x => x

/-- Overwrite the chunk of `fid` at `offset`. -/
def setChunk (l : List Meta) (fid offset : ℤ) (c : MetaChunkInfo) : List Meta :=
  Leaves.update l ⟨.chunkinfo, fid, offset⟩ fun _ => .chunkinfo c

/-- Insert a chunk and count it. -/
def linkChunk (env : Env) (l : List Meta) (c : MetaChunkInfo) : List Meta :=
  Leaves.update (Leaves.insert l (.chunkinfo c)) ⟨.fattr, c.id, 0⟩ (Meta.addChunk env)

/-- **`assignChunkId`** fails with nothing changed, changes the version of the chunk that is there, or links
a new chunk. -/
theorem assignChunkId_spec {offset chunkId v : ℤ}
    (h : assignChunkId env fs fid offset chunkId v = (st, fs')) :
    (getFattr fs.leaves fid = none ∧ st = -ENOENT ∧ fs' = fs) ∨
      ∃ fa, getFattr fs.leaves fid = some fa ∧
        ((∃ c, getChunk fs.leaves fid (chunkStartOffset offset) = some c ∧ c.chunkVersion = v ∧
            st = -EEXIST ∧ fs' = fs) ∨
          (∃ c, getChunk fs.leaves fid (chunkStartOffset offset) = some c ∧ c.chunkVersion ≠ v ∧
            st = 0 ∧ fs' = { fs with
              leaves := setChunk fs.leaves fid (chunkStartOffset offset) { c with chunkVersion := v } }) ∨
          (getChunk fs.leaves fid (chunkStartOffset offset) = none ∧ st = 0 ∧
            fs' = { fs with leaves := linkChunk env fs.leaves ⟨fid, offset, chunkId, v⟩ })) := by
  unfold assignChunkId at h
  rcases hf : getFattr fs.leaves fid with - | fa
  · obtain ⟨rfl, rfl⟩ : -ENOENT = st ∧ fs = fs' := by simpa [hf] using h
    exact Or.inl ⟨rfl, rfl, rfl⟩
  refine Or.inr ⟨fa, rfl, ?_⟩
  rcases hc : getChunk fs.leaves fid (chunkStartOffset offset) with - | c
  · simp only [hf, hc, Prod.mk.injEq] at h
    obtain ⟨rfl, rfl⟩ := h
    exact Or.inr (Or.inr ⟨rfl, rfl, rfl⟩)
  · simp only [hf, hc] at h
    by_cases hv : c.chunkVersion = v
    · rw [if_pos hv, Prod.mk.injEq] at h
      obtain ⟨rfl, rfl⟩ := h
      exact Or.inl ⟨c, rfl, hv, rfl, rfl⟩
    · rw [if_neg hv, Prod.mk.injEq] at h
      obtain ⟨rfl, rfl⟩ := h
      exact Or.inr (Or.inl ⟨c, rfl, hv, rfl, rfl⟩)

/-- The chunks that `truncate` at `offset` removes, from the first one that is not before its chunk. -/
def deadChunks (offset : ℤ) (chunks : List MetaChunkInfo) : List MetaChunkInfo :=
  match chunks.drop (Lib.lowerBound (fun c => decide (c.offset < chunkStartOffset offset)) chunks) with
  | [] => []
  | m :: ms => if m.offset ≤ offset then ms else m :: ms

/-- Whether the file has the chunk of `offset`. -/
def hasChunkAt (offset : ℤ) (chunks : List MetaChunkInfo) : Bool :=
  match chunks.drop (Lib.lowerBound (fun c => decide (c.offset < chunkStartOffset offset)) chunks) with
  | [] => false
  | m :: _ => decide (m.offset = chunkStartOffset offset)

/-- **`truncate`** fails with nothing changed, asks for a chunk, or removes the chunks after `offset`. -/
theorem truncate_spec {offset a : ℤ} (h : truncate env fs fid offset = some (st, a, fs')) :
    (st < 0 ∧ fs' = fs) ∨ ∃ fa, getFattr fs.leaves fid = some fa ∧ fa.type = .file ∧
      fa.chunkcount = (getalloc fs.leaves fa.id).length ∧
      ((hasChunkAt offset (getalloc fs.leaves fa.id) = false ∧ st = 1 ∧ a = chunkStartOffset offset ∧
          fs' = { fs with leaves := setFattr fs.leaves fid { fa with filesize := -1 } }) ∨
        (hasChunkAt offset (getalloc fs.leaves fa.id) = true ∧ st = 0 ∧
          ∃ l₁, deleteChunks fs.leaves (deadChunks offset (getalloc fs.leaves fa.id)) = some l₁ ∧
            fs' = { fs with leaves := setFattr l₁ fid { fa with
              filesize := -1, mtime := env.now,
              chunkcount := fa.chunkcount - (deadChunks offset (getalloc fs.leaves fa.id)).length } })) := by
  unfold truncate at h
  rcases hf : getFattr fs.leaves fid with - | fa
  · obtain ⟨rfl, -, rfl⟩ : -ENOENT = st ∧ 0 = a ∧ fs = fs' := by simpa [hf] using h
    exact Or.inl ⟨by decide, rfl⟩
  simp only [hf] at h
  by_cases ht : fa.type = .file
  swap
  · rw [if_pos ht] at h
    obtain ⟨rfl, -, rfl⟩ : -EISDIR = st ∧ 0 = a ∧ fs = fs' := by simpa using h
    exact Or.inl ⟨by decide, rfl⟩
  rw [if_neg (not_not.mpr ht)] at h
  by_cases hcc : fa.chunkcount = (getalloc fs.leaves fa.id).length
  swap
  · rw [if_pos hcc] at h
    simp at h
  rw [if_neg (not_not.mpr hcc)] at h
  refine Or.inr ⟨fa, rfl, ht, hcc, ?_⟩
  unfold hasChunkAt deadChunks
  rcases hd : (getalloc fs.leaves fa.id).drop (Lib.lowerBound
    (fun c => decide (c.offset < chunkStartOffset offset)) (getalloc fs.leaves fa.id)) with - | ⟨m, ms⟩
  · simp only [hd, Option.some.injEq, Prod.mk.injEq] at h ⊢
    obtain ⟨rfl, rfl, rfl⟩ := h
    exact Or.inl ⟨trivial, rfl, rfl, rfl⟩
  · simp only [hd] at h ⊢
    by_cases hm : m.offset = chunkStartOffset offset
    · rw [if_neg (not_not.mpr hm)] at h
      simp only [Option.bind_eq_bind, Option.bind_eq_some_iff, Option.pure_def, Option.some.injEq,
        Prod.mk.injEq] at h
      obtain ⟨l₁, h₁, rfl, -, rfl⟩ := h
      exact Or.inr ⟨by simp [hm], rfl, l₁, h₁, rfl⟩
    · rw [if_pos hm, Option.some.injEq, Prod.mk.injEq, Prod.mk.injEq] at h
      obtain ⟨rfl, rfl, rfl⟩ := h
      exact Or.inl ⟨by simp [hm], rfl, rfl, rfl⟩

end Kfs
