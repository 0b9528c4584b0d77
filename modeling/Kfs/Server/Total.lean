import Kfs.Server.Spare
import Kfs.Fs.Succeed

/-!
# Operations that complete

In a well-formed tree the operations run into no failed assertion, null pointer or endless loop.

* `Hierarchy.lookup_isSome`, `Hierarchy.lookupPath_isSome`, …: the reading operations;
* `Counts`: the files have as many chunks as they count;
* `rmdir_isSome`, `remove_isSome`, `rename_isSome`, `create_isSome`: the name space; `dumpsterRefuses`: when a
  busy file cannot be moved to the dumpster.
-/

namespace Kfs

variable {env : Env} {fs fs' : Fs} {l l' : List Meta} {dir fid st : ℤ} {name : Str} {d : MetaDentry}

/-! ## Reading -/

namespace Hierarchy

theorem readdir_isSome (h : Hierarchy l) (dir : ℤ) : ∃ v, readdir l dir = some v := by
  rw [readdir_eq]
  by_cases hd : dents l dir = []
  · exact ⟨none, if_pos hd⟩
  obtain ⟨e, he⟩ := List.exists_mem_of_ne_nil _ hd
  rw [mem_dents] at he
  obtain ⟨f, hf, hfi, hft⟩ := h.in_dir e he.1
  have h₂ := h.two_le hf hft
  rw [hfi, he.2] at h₂
  exact ⟨some (dents l dir), by rw [if_neg hd, if_pos h₂]⟩

theorem getDentry_isSome (h : Hierarchy l) (dir : ℤ) (name : Str) : ∃ o, getDentry l dir name = some o := by
  obtain ⟨v, hv⟩ := h.readdir_isSome dir
  exact ⟨_, by rw [getDentry, hv, Option.map_some]⟩

theorem emptydir_isSome (h : Hierarchy l) (dir : ℤ) : ∃ b, emptydir l dir = some b := by
  obtain ⟨v, hv⟩ := h.readdir_isSome dir
  exact ⟨_, by rw [emptydir, hv, Option.map_some]⟩

theorem lookup_isSome (h : Hierarchy l) (dir : ℤ) (name : Str) : ∃ o, lookup l dir name = some o := by
  obtain ⟨o, ho⟩ := h.getDentry_isSome dir name
  rcases o with - | d
  · exact ⟨none, lookup_eq_none ho⟩
  · obtain ⟨hdm, -, -⟩ := getDentry_some ho
    obtain ⟨f, hf, hfi⟩ := h.has_attr d hdm
    exact ⟨some f, lookup_eq ho (h.uniq.getFattr_iff.mpr ⟨hf, hfi⟩)⟩

theorem lookupComponents_isSome (h : Hierarchy l) :
    ∀ (cs : List Str) (dir : ℤ), ∃ o, lookupComponents l dir cs = some o
  | [], _ => ⟨none, rfl⟩
  | [c], dir => h.lookup_isSome dir c
  | c :: c' :: cs, dir => by
    obtain ⟨o, ho⟩ := h.lookup_isSome dir c
    rcases o with - | fa
    · exact ⟨none, by simp only [lookupComponents, ho]⟩
    · obtain ⟨o', ho'⟩ := h.lookupComponents_isSome (c' :: cs) fa.id
      exact ⟨o', by simp only [lookupComponents, ho]; exact ho'⟩

theorem lookupPath_isSome (h : Hierarchy l) (rootdir : ℤ) (path : Str) :
    ∃ o, lookupPath l rootdir path = some o := by
  unfold lookupPath
  dsimp only
  by_cases hrest : (if decide (path.head? = some '/') = true then path.tail else path) = []
  · rw [if_pos hrest]
    exact h.lookup_isSome _ _
  · rw [if_neg hrest]
    exact h.lookupComponents_isSome _ _

theorem wormForbids_isSome (h : Hierarchy l) (worm : Bool) (oldname newname : Str) :
    ∃ b, wormForbids worm l oldname newname = some b := by
  obtain ⟨o, ho⟩ := h.lookupPath_isSome ROOTFID newname
  unfold wormForbids path_exists
  rw [ho, Option.map_some]
  split_ifs
  · exact ⟨_, rfl⟩
  · exact ⟨_, rfl⟩
  · exact ⟨_, rfl⟩

theorem renameTarget_isSome (h : Hierarchy l) (parent : ℤ) (newname : Str) :
    ∃ r, renameTarget l parent newname = some r := by
  unfold renameTarget
  split_ifs
  · obtain ⟨o, ho⟩ := h.lookupPath_isSome parent (splitPath newname).1
    rw [ho]
    rcases o with - | fa
    · exact ⟨_, rfl⟩
    · dsimp only
      split_ifs
      · exact ⟨_, rfl⟩
      · exact ⟨_, rfl⟩
  · exact ⟨_, rfl⟩

theorem renameConflict_isSome (h : Hierarchy l) (src : MetaDentry) (sfattr : MetaFattr) {ddir : ℤ} (dname : Str)
    (dfattr : Option MetaFattr) (overwrite : Bool) (hd : ∃ g, .fattr g ∈ l ∧ g.id = ddir ∧ g.type = .dir) :
    ∃ r, renameConflict l src sfattr ddir dname dfattr overwrite = some r := by
  have hfull : ∃ b, targetFull l sfattr.type dfattr = some b := by
    unfold targetFull
    rcases dfattr with - | e
    · exact ⟨_, rfl⟩
    · dsimp only
      split_ifs
      · obtain ⟨b, hb⟩ := h.emptydir_isSome e.id
        exact ⟨_, by rw [hb, Option.map_some]⟩
      · exact ⟨_, rfl⟩
  have hloop : ∃ b, renameLoop l sfattr ddir = some b := by
    unfold renameLoop
    split_ifs
    · obtain ⟨g, hg, rfl, hgt⟩ := hd
      exact Option.isSome_iff_exists.mp (h.is_descendant_isSome sfattr.id hg hgt)
    · exact ⟨_, rfl⟩
  obtain ⟨b, hb⟩ := hfull
  obtain ⟨b', hb'⟩ := hloop
  unfold renameConflict
  rw [hb, hb']
  cases b <;> cases b' <;> split_ifs <;> exact ⟨_, rfl⟩

theorem renameCheck_isSome (h : Hierarchy l) (parent : ℤ) (oldname newname : Str) (overwrite : Bool) :
    ∃ r, renameCheck l parent oldname newname overwrite = some r := by
  unfold renameCheck
  obtain ⟨o, ho⟩ := h.getDentry_isSome parent oldname
  rw [ho]
  rcases o with - | src
  · exact ⟨_, rfl⟩
  obtain ⟨r, hr⟩ := h.renameTarget_isSome parent newname
  dsimp only
  rw [hr]
  rcases r with status | ⟨ddir, dname⟩
  · exact ⟨_, rfl⟩
  dsimp only
  by_cases hlegal : ¬ legalname dname = true
  · exact ⟨_, if_pos hlegal⟩
  rw [if_neg hlegal]
  by_cases hsame : ddir = parent ∧ dname = oldname
  · exact ⟨_, if_pos hsame⟩
  rw [if_neg hsame]
  obtain ⟨hsm, hsd, hsn⟩ := getDentry_some ho
  obtain ⟨f, hf, hfi⟩ := h.has_attr src hsm
  have hs : lookup l parent oldname = some (some f) := lookup_eq ho (h.uniq.getFattr_iff.mpr ⟨hf, hfi⟩)
  obtain ⟨dfattr, hdf⟩ := h.lookup_isSome ddir dname
  rw [hs, hdf]
  refine h.renameConflict_isSome src f dname dfattr overwrite ?_
  rcases renameTarget_dir hr with rfl | hg
  · rw [← hsd]
    exact h.in_dir src hsm
  · exact hg

end Hierarchy

/-! ## Directories -/

theorem mkdir_isSome (h : Hierarchy fs.leaves) (env : Env) (dir : ℤ) (dname : Str) (newFid : ℤ) :
    ∃ r, mkdir env fs dir dname newFid = some r := by
  unfold mkdir
  by_cases hn : ¬ legalname dname = true ∧ dir ≠ ROOTFID ∧ dname ≠ ['/']
  · exact ⟨_, if_pos hn⟩
  rw [if_neg hn]
  obtain ⟨o, ho⟩ := h.lookup_isSome dir dname
  rw [ho]
  rcases o with - | fa
  · simp only [link_dot env _ _ (Or.inl rfl), link_dot env _ _ (Or.inr rfl)]
    exact ⟨_, rfl⟩
  · exact ⟨_, rfl⟩

theorem getDumpster_isSome (htidy : Tidy fs) (h : Hierarchy fs.leaves) (env : Env) :
    ∃ r, getDumpster env fs = some r := by
  unfold getDumpster
  obtain ⟨o, ho⟩ := h.lookup_isSome ROOTFID DUMPSTERDIR
  rw [ho]
  rcases o with - | fa
  swap
  · exact ⟨_, rfl⟩
  obtain ⟨⟨st, id, fs₁⟩, hm⟩ := mkdir_isSome h env ROOTFID DUMPSTERDIR 0
  simp only [Option.bind_eq_bind, Option.bind_some, makeDumpsterDir, hm, Option.map_some]
  rcases mkdir_spec hm with ⟨-, hf⟩ | ⟨-, -, -, ⟨-, -, rfl, rfl⟩ | ⟨-, hs, -⟩ | ⟨h0, -⟩⟩
  · -- the directory does not exist, so `mkdir` has made it
    have hr := hm
    unfold mkdir at hr
    rw [if_neg (by decide), ho] at hr
    simp only [link_dot env _ _ (Or.inl rfl), link_dot env _ _ (Or.inr rfl), Option.some.injEq,
      Prod.mk.injEq] at hr
    obtain ⟨-, -, hr⟩ := hr
    rw [hf] at hr
    have hid := congrArg Fs.fileID hr
    rw [if_pos (by decide)] at hid
    change fs.fileID + 1 = fs.fileID at hid
    omega
  · obtain ⟨f, hf, hfi, hft⟩ := h.root_dir
    have h₁ := mkdir_hier h htidy hf hfi hft (fun hc => absurd hc (show ¬ DUMPSTERDIR = ['/'] by decide)) hm
    have hl : lookup (Fs.mkdirAt env { fs with fileID := fs.fileID + 1 } ROOTFID DUMPSTERDIR
        (fs.fileID + 1)).leaves ROOTFID DUMPSTERDIR =
        some (some (MetaFattr.new env .dir (fs.fileID + 1) 1)) := by
      refine h₁.lookup_iff.mpr ⟨mem_dentry_mkdirAt.mpr ?_, mem_fattr_mkdirAt.mpr (Or.inl rfl)⟩
      exact Or.inr (Or.inr (Or.inl rfl))
    rw [hl]
    exact ⟨_, rfl⟩
  · exact absurd hs (by decide)
  · exact absurd rfl h0

/-- The three entries and the attributes of an empty directory can be removed. -/
theorem rmdir_isSome (h : Hierarchy fs.leaves) (dir : ℤ) (dname : Str) : ∃ r, rmdir fs dir dname = some r := by
  unfold rmdir
  obtain ⟨o, ho⟩ := h.lookup_isSome dir dname
  rw [ho]
  dsimp only
  by_cases hdump : dir = ROOTFID ∧ dname = DUMPSTERDIR
  · exact ⟨_, if_pos hdump⟩
  rw [if_neg hdump]
  rcases o with - | fa
  · exact ⟨_, rfl⟩
  dsimp only
  by_cases ht : fa.type = .dir
  swap
  · exact ⟨_, if_pos ht⟩
  rw [if_neg (not_not.mpr ht)]
  by_cases hdot : dname = ['.'] ∨ dname = ['.', '.']
  · exact ⟨_, if_pos hdot⟩
  rw [if_neg hdot]
  obtain ⟨hem, hfm⟩ := h.lookup_iff.mp ho
  obtain ⟨b, hb⟩ := h.emptydir_isSome fa.id
  simp only [hb, Option.bind_eq_bind, Option.bind_some]
  cases b
  · exact ⟨_, rfl⟩
  obtain ⟨e, -, -, -, hup⟩ := h.home fa hfm
  obtain ⟨l₁, h₁⟩ := h.uniq.delOk_isSome (m := .dentry ⟨fa.id, ['.'], fa.id⟩) (plain_dentry _)
    (h.dot fa hfm ht) rfl
  have hm₁ := fun x => h.uniq.mem_delOk (x := x) (plain_dentry _) h₁
  obtain ⟨l₂, h₂⟩ := (h.uniq.delOk h₁).delOk_isSome (m := .dentry ⟨fa.id, ['.', '.'], fa.id⟩)
    (plain_dentry _) ((hm₁ _).mpr ⟨hup ht, by simp [Meta.slot]⟩) rfl
  have hm₂ := fun x => (h.uniq.delOk h₁).mem_delOk (x := x) (plain_dentry _) h₂
  have hem₂ : .dentry ⟨dir, dname, fa.id⟩ ∈ l₂ := by
    refine (hm₂ _).mpr ⟨(hm₁ _).mpr ⟨hem, fun hc => hdot (Or.inl ?_)⟩, fun hc => hdot (Or.inr ?_)⟩
    · simp only [Meta.slot, Slot.dent.injEq] at hc
      exact hc.2
    · simp only [Meta.slot, Slot.dent.injEq] at hc
      exact hc.2
  obtain ⟨l₃, h₃⟩ := ((h.uniq.delOk h₁).delOk h₂).delOk_isSome (m := .dentry ⟨dir, dname, fa.id⟩)
    (plain_dentry _) hem₂ rfl
  have hm₃ := fun x => ((h.uniq.delOk h₁).delOk h₂).mem_delOk (x := x) (plain_dentry _) h₃
  have hfm₃ : .fattr fa ∈ l₃ :=
    (hm₃ _).mpr ⟨(hm₂ _).mpr ⟨(hm₁ _).mpr ⟨hfm, by simp [Meta.slot]⟩, by simp [Meta.slot]⟩, by simp [Meta.slot]⟩
  obtain ⟨l₄, h₄⟩ := (((h.uniq.delOk h₁).delOk h₂).delOk h₃).delOk_isSome (m := .fattr fa)
    (plain_fattr _) hfm₃ rfl
  refine ⟨(0, { fs with leaves := l₄ }), ?_⟩
  simp [unlink, h₁, h₂, h₃, h₄]

/-! ## Removing -/

/-- The files have as many chunks as they count. -/
def Counts (l : List Meta) : Prop :=
  ∀ f : MetaFattr, .fattr f ∈ l → f.type = .file → f.chunkcount = (getalloc l f.id).length

theorem mem_getalloc {c : MetaChunkInfo} : c ∈ getalloc l fid ↔ .chunkinfo c ∈ l ∧ c.id = fid := by
  rw [getalloc_eq, List.mem_filter, mem_chunks, decide_eq_true_eq]

theorem Uniq.getalloc_nodup (h : Uniq l) (fid : ℤ) : (getalloc l fid).Nodup := by
  rw [getalloc_eq]
  refine List.Nodup.filter _ (h.list_nodup.filterMap fun x y c hx hy => ?_)
  cases x <;> cases y <;> simp_all [Meta.chunkinfo?]

theorem Uniq.getalloc_length (h : Uniq l) (h' : Uniq l')
    (hc : ∀ c, c.id = fid → (.chunkinfo c ∈ l' ↔ .chunkinfo c ∈ l)) :
    (getalloc l' fid).length = (getalloc l fid).length := by
  refine List.Perm.length_eq ((List.perm_ext_iff_of_nodup (h'.getalloc_nodup fid) (h.getalloc_nodup fid)).mpr
    fun c => ?_)
  rw [mem_getalloc, mem_getalloc]
  exact and_congr_left (hc c)

theorem removed_isSome (h : Hierarchy l) {fa : MetaFattr} (hl : lookup l dir name = some (some fa)) :
    ∃ l₁ l', dropChunks l fa (getalloc l fa.id) = some l₁ ∧ unlink l₁ dir name fa false = some l' := by
  obtain ⟨hdm, hfm⟩ := h.lookup_iff.mp hl
  obtain ⟨l₁, h₁⟩ := dropChunks_isSome h.uniq.plain fa
  obtain ⟨hs, hm⟩ := dropChunks_mem h₁
  have u₁ := h.uniq.sublist hs
  obtain ⟨l₂, h₂⟩ := u₁.delOk_isSome (m := .dentry ⟨dir, name, fa.id⟩) (plain_dentry _)
    ((hm _ (by simp)).mpr hdm) rfl
  have hfm₂ : .fattr fa ∈ l₂ := by
    rw [u₁.mem_delOk (plain_dentry _) h₂]
    exact ⟨(hm _ (by simp)).mpr hfm, by simp [Meta.slot]⟩
  obtain ⟨l', h'⟩ := (u₁.delOk h₂).delOk_isSome (m := .fattr fa) (plain_fattr _) hfm₂ rfl
  exact ⟨l₁, l', h₁, unlink_iff.mpr ⟨l₂, h₂, h'⟩⟩

/-- A removal completes when the moves to the dumpster do. -/
theorem removeF_isSome {fuel : ℕ} (h : Hierarchy fs.leaves) (hc : Counts fs.leaves)
    (hm : ∀ fa, lookup fs.leaves dir name = some (some fa) → fa.type = .file →
      ∃ r, moveToDumpsterWith (removeF fuel env) env fs dir name = some r) :
    ∃ r, removeF (fuel + 1) env fs dir name = some r := by
  obtain ⟨o, ho⟩ := h.lookup_isSome dir name
  unfold removeF
  rw [ho]
  rcases o with - | fa
  · exact ⟨_, rfl⟩
  simp only [Option.bind_eq_bind, Option.bind_some, Option.pure_def]
  by_cases ht : fa.type = .file
  swap
  · exact ⟨_, if_pos ht⟩
  have hcount := hc fa (lookup_mem ho) ht
  rw [if_neg (not_not.mpr ht), if_neg fun hcc => hcc.2 hcount]
  by_cases hb : fa.chunkcount > 0 ∧ ((getalloc fs.leaves fa.id).any fun c => env.leased c.chunkId) = true
  · rw [if_pos hb]
    exact hm fa ho ht
  · obtain ⟨l₁, l', h₁, h₂⟩ := removed_isSome h ho
    rw [if_neg hb]
    simp [h₁, h₂]

/-- A file in the dumpster is not moved to it again. -/
theorem moveToDumpsterWith_dumpster {rm : Fs → ℤ → Str → Option (ℤ × Fs)} {du : MetaFattr}
    (hdump : lookup fs.leaves ROOTFID DUMPSTERDIR = some (some du)) (hid : du.id = dir) :
    moveToDumpsterWith rm env fs dir name = some (-EEXIST, fs) := by
  simp [moveToDumpsterWith, getDumpster, hdump, hid]

theorem relink_file_isSome {p : RenamePlan} (ht : p.sfattr.type ≠ .dir) (hm : .dentry p.src ∈ l) :
    ∃ l', relink env l p = some l' := by
  obtain ⟨l₁, h₁⟩ := delOk_isSome_of_mem hm ((hits_iff (plain_dentry _) (plain_dentry _)).mpr rfl)
  unfold relink
  rw [if_pos ⟨hm, fun hc => absurd hc ht⟩]
  simp [ht, h₁]

section

variable {rm : Fs → ℤ → Str → Option (ℤ × Fs)} {parent : ℤ} {oldname newname : Str} {overwrite : Bool}

theorem renameWith_isSome (h : Hierarchy fs.leaves)
    (hclear : ∀ p : RenamePlan, p.Checked fs.leaves parent oldname newname overwrite →
      ∃ r, clearTarget rm fs p = some r)
    (hlink : ∀ (p : RenamePlan) (fs₁ : Fs), p.Checked fs.leaves parent oldname newname overwrite →
      clearTarget rm fs p = some (0, fs₁) → ∃ l', relink env fs₁.leaves p = some l') :
    ∃ r, renameWith rm env fs parent oldname newname overwrite = some r := by
  obtain ⟨r, hr⟩ := h.renameCheck_isSome parent oldname newname overwrite
  unfold renameWith
  rw [hr]
  rcases r with status | p
  · exact ⟨_, rfl⟩
  have hp := renameCheck_iff.mp hr
  obtain ⟨⟨status, fs₁⟩, hcl⟩ := hclear p hp
  dsimp only
  rw [hcl]
  dsimp only
  by_cases hst : status = 0
  · subst hst
    obtain ⟨l', hl'⟩ := hlink p fs₁ hp hcl
    rw [if_neg (by simp), hl']
    exact ⟨_, rfl⟩
  · exact ⟨_, if_pos hst⟩

end

theorem RenamePlan.Checked.entry {parent : ℤ} {oldname newname : Str} {overwrite : Bool} {p : RenamePlan}
    (h : Hierarchy l) (hp : p.Checked l parent oldname newname overwrite) (ht : p.sfattr.type = .file) :
    FileEntry l p.src := by
  obtain ⟨hsm, -, -, hfm, hsi⟩ := hp.mem h
  exact ⟨hsm, p.sfattr, hfm, hsi.symm, ht⟩

theorem getDumpster_counts (htidy : Tidy fs) (h : Hierarchy fs.leaves) (hc : Counts fs.leaves) {du : MetaFattr}
    (hg : getDumpster env fs = some (du, fs')) : Counts fs'.leaves := by
  obtain ⟨h', -⟩ := getDumpster_hier htidy h hg
  rcases getDumpster_spec hg with ⟨-, rfl⟩ | ⟨-, rfl, -⟩
  · exact hc
  intro f hf ht
  rcases mem_fattr_mkdirAt.mp hf with rfl | hf
  · exact absurd ht (show ¬ FileType.dir = .file by decide)
  · rw [h.uniq.getalloc_length h'.uniq fun c _ => by simp [Fs.mkdirAt, Leaves.mem_insert]]
    exact hc f hf ht

/-- **A busy file can be moved to the dumpster**: at most one file of the dumpster is removed for it, which is
never diverted again. -/
theorem moveToDumpster_isSome (htidy : Tidy fs) (h : Hierarchy fs.leaves) (hc : Counts fs.leaves)
    {fa : MetaFattr} (hl : lookup fs.leaves dir name = some (some fa)) (ht : fa.type = .file) :
    ∃ r, moveToDumpsterWith (removeF 1 env) env fs dir name = some r := by
  obtain ⟨⟨du, fs₁⟩, hg⟩ := getDumpster_isSome htidy h env
  obtain ⟨h₁, hdump, hsub, -⟩ := getDumpster_hier htidy h hg
  obtain ⟨htidy₁, -⟩ := getDumpster_tidy htidy hg
  have hc₁ := getDumpster_counts htidy h hc hg
  obtain ⟨hdm, hfm⟩ := h.lookup_iff.mp hl
  have hl₁ : lookup fs₁.leaves dir name = some (some fa) := h₁.lookup_iff.mpr ⟨hsub _ hdm, hsub _ hfm⟩
  unfold moveToDumpsterWith
  simp only [hg, Option.bind_eq_bind, Option.bind_some, Option.pure_def]
  by_cases hid : du.id = dir
  · exact ⟨_, if_pos hid⟩
  rw [if_neg hid]
  -- the source is the file, and the target is in the dumpster
  have hplan : ∀ p : RenamePlan, p.Checked fs₁.leaves dir name (tempname name fs₁.counter) true →
      p.sfattr.type = .file ∧ p.ddir = du.id := by
    intro p hp
    obtain rfl : p.sfattr = fa := by simpa using hp.found.symm.trans hl₁
    exact ⟨ht, (tempname_renameTarget (htidy.legal_of_file hl ht) hdump hp.target).1⟩
  have htidy₂ : Tidy { fs₁ with counter := fs₁.counter + 1 } :=
    htidy₁.of_imp le_rfl (fun _ hm => hm) fun g hg => ⟨g, hg, rfl, rfl⟩
  refine @renameWith_isSome env { fs₁ with counter := fs₁.counter + 1 } _ _ _ _ _ h₁ (fun p hp => ?_)
    fun p fs₂ hp hcl => ?_
  · obtain ⟨hty, hdd⟩ := hplan p hp
    unfold clearTarget
    rw [hty, if_neg (show ¬ FileType.file = .dir by decide)]
    split_ifs
    · exact @removeF_isSome env { fs₁ with counter := fs₁.counter + 1 } _ _ 0 h₁ hc₁
        fun _ _ _ => ⟨_, moveToDumpsterWith_dumpster hdump hdd.symm⟩
    · exact ⟨_, rfl⟩
  · obtain ⟨hty, hdd⟩ := hplan p hp
    have hentry := hp.entry h₁ hty
    refine relink_file_isSome (by rw [hty]; decide) ?_
    unfold clearTarget at hcl
    rw [hty, if_neg (show ¬ FileType.file = .dir by decide)] at hcl
    split_ifs at hcl
    · have hk := removeF_kept env 1 htidy₂ h₁ hentry ⟨fun hc => hp.ne ?_, fun _ _ _ du' hdu' hne => ?_⟩ hcl
      · exact hk.mem
      · obtain ⟨-, hsd, hsn, -⟩ := hp.mem h₁
        exact ⟨hc.1.symm.trans hsd, hc.2.symm.trans hsn⟩
      · obtain rfl : du = du' := by simpa using hdump.symm.trans hdu'
        exact absurd hdd.symm hne
    · obtain ⟨-, rfl⟩ : 0 = (0 : ℤ) ∧ { fs₁ with counter := fs₁.counter + 1 } = fs₂ := by simpa using hcl
      exact hentry.mem

/-- **`remove` completes.** -/
theorem remove_isSome (htidy : Tidy fs) (h : Hierarchy fs.leaves) (hc : Counts fs.leaves) (env : Env) (dir : ℤ)
    (name : Str) : ∃ r, remove env fs dir name = some r :=
  removeF_isSome h hc fun _ hl ht => moveToDumpster_isSome htidy h hc hl ht

/-! ## Renaming -/

/-- The entry and the attributes of a directory that is renamed over an empty one stay. -/
theorem RmdirDone.source {parent : ℤ} {oldname newname : Str} {overwrite : Bool} {p : RenamePlan}
    {fa : MetaFattr} (h : Hierarchy fs.leaves) (hp : p.Checked fs.leaves parent oldname newname overwrite)
    (hn : ¬ isDot oldname) (hr : RmdirDone fs p.ddir p.dname fa l') :
    .dentry p.src ∈ l' ∧ .fattr p.sfattr ∈ l' := by
  obtain ⟨hsm, hsd, hsn, hfm, hsi⟩ := hp.mem h
  obtain ⟨hem, hfam⟩ := hr.found_mem h
  have hne : p.src ≠ ⟨p.ddir, p.dname, fa.id⟩ := by
    intro hc
    refine hp.ne ⟨?_, ?_⟩
    · rw [← hsd, hc]
    · rw [← hsn, hc]
  rw [hr.mem_dentry h, hr.mem_fattr h]
  refine ⟨⟨hsm, fun hc => hn ?_, hne⟩, hfm, fun hc => hne ?_⟩
  · rw [← hsn]
    exact h.empty_dot hfam hr.type hr.empty hsm hc
  · refine h.home_eq _ _ hsm hem (by rwa [hsn]) (not_or.mpr hr.not_dot) (hsi.trans hc)

theorem relink_dir_isSome {p : RenamePlan} (h : Hierarchy l) (hid : p.src.id = p.sfattr.id)
    (ht : p.sfattr.type = .dir) (hn : ¬ isDot p.src.name) (hm : .dentry p.src ∈ l) (hf : .fattr p.sfattr ∈ l) :
    ∃ l', relink env l p = some l' := by
  obtain ⟨e, -, -, -, hup⟩ := h.home _ hf
  obtain ⟨l₁, h₁⟩ := h.uniq.delOk_isSome (m := .dentry ⟨p.src.id, ['.', '.'], p.sfattr.id⟩) (plain_dentry _)
    (hup ht) (by simp [Meta.slot, hid])
  have hm₁ : .dentry p.src ∈ l₁ := by
    rw [h.uniq.mem_delOk (plain_dentry _) h₁]
    refine ⟨hm, fun hc => hn ?_⟩
    simp only [Meta.slot, Slot.dent.injEq] at hc
    exact Or.inr hc.2
  obtain ⟨l₂, h₂⟩ := (h.uniq.delOk h₁).delOk_isSome (m := .dentry p.src) (plain_dentry _) hm₁ rfl
  unfold relink
  rw [if_pos ⟨hm, fun _ => hf⟩]
  simp [ht, unlink, h₁, h₂, link_dot env _ _ (Or.inr rfl)]

/-- **`rename` completes** when its source is not a dot entry, and not the file in the dumpster that the
removal of a busy target overwrites. -/
theorem rename_isSome (htidy : Tidy fs) (h : Hierarchy fs.leaves) (hc : Counts fs.leaves) {parent : ℤ}
    {oldname newname : Str} {overwrite : Bool} (env : Env)
    (hdot : isDot oldname → ∀ p : RenamePlan, ¬ p.Checked fs.leaves parent oldname newname overwrite)
    (hsrc : ∀ p : RenamePlan, p.Checked fs.leaves parent oldname newname overwrite → p.sfattr.type = .file →
      p.dexists = true → Spared env fs p.ddir p.dname p.src) :
    ∃ r, rename env fs parent oldname newname overwrite = some r := by
  refine renameWith_isSome h (fun p hp => ?_) fun p fs₁ hp hcl => ?_
  · unfold clearTarget
    split_ifs
    · exact rmdir_isSome h _ _
    · exact remove_isSome htidy h hc env _ _
    · exact ⟨_, rfl⟩
  have hcleared := clearTarget_cleared (removeF_moves env 2) htidy h hp hcl
  obtain ⟨hsm, hsd, hsn, hfm, hsi⟩ := hp.mem h
  have hn : ¬ isDot oldname := fun hn => hdot hn p hp
  rcases h.type _ hfm with hty | hty
  · refine relink_file_isSome (by rw [hty]; decide) ?_
    unfold clearTarget at hcl
    rw [hty, if_neg (show ¬ FileType.file = .dir by decide)] at hcl
    split_ifs at hcl with hex
    · exact (removeF_kept env 2 htidy h (hp.entry h hty) (hsrc p hp hty hex) hcl).mem
    · obtain ⟨-, rfl⟩ : 0 = (0 : ℤ) ∧ fs = fs₁ := by simpa using hcl
      exact hsm
  · have hmem : .dentry p.src ∈ fs₁.leaves ∧ .fattr p.sfattr ∈ fs₁.leaves := by
      unfold clearTarget at hcl
      rw [if_pos hty] at hcl
      split_ifs at hcl with hex
      · rcases rmdir_spec hcl with ⟨h0, -⟩ | ⟨-, fa, l', hr, rfl⟩
        · exact absurd h0 (by decide)
        · exact hr.source h hp hn
      · obtain ⟨-, rfl⟩ : 0 = (0 : ℤ) ∧ fs = fs₁ := by simpa using hcl
        exact ⟨hsm, hfm⟩
    exact relink_dir_isSome hcleared.hier hsi hty (by rwa [hsn]) hmem.1 hmem.2

/-! ## Creating -/

/-- A busy file of this name cannot be moved to the dumpster: it is in the dumpster, the dumpster is not a
directory, or its name there is that of a directory or of a busy file. -/
def dumpsterRefuses (env : Env) (fs : Fs) (dir : ℤ) (name : Str) : Bool :=
  match lookup fs.leaves ROOTFID DUMPSTERDIR with
  | some (some du) => decide (du.id = dir) || decide (du.type ≠ .dir) ||
      match lookup fs.leaves du.id (name ++ (toString fs.counter).toList) with
      | some (some g) => decide (g.type ≠ .file) || busy env fs.leaves g
      | _ => false
  | _ => false

theorem dumpsterRefuses_eq_false {du : MetaFattr}
    (hd : lookup fs.leaves ROOTFID DUMPSTERDIR = some (some du)) (h : dumpsterRefuses env fs dir name = false) :
    du.id ≠ dir ∧ du.type = .dir ∧
      ∀ g, lookup fs.leaves du.id (name ++ (toString fs.counter).toList) = some (some g) →
        g.type = .file ∧ busy env fs.leaves g = false := by
  simp only [dumpsterRefuses, hd, Bool.or_eq_false_iff, decide_eq_false_iff_not, not_not] at h
  refine ⟨h.1.1, h.1.2, fun g hg => ?_⟩
  have h₂ := h.2
  simp only [hg, Bool.or_eq_false_iff, decide_eq_false_iff_not, ne_eq, not_not] at h₂
  exact h₂

/-- The checks of the renaming to a dumpster that does not refuse the file. -/
theorem dumpster_checked (htidy : Tidy fs) (h : Hierarchy fs.leaves) {fa du : MetaFattr}
    (hl : lookup fs.leaves dir name = some (some fa)) (ht : fa.type = .file)
    (hd : lookup fs.leaves ROOTFID DUMPSTERDIR = some (some du)) (hr : dumpsterRefuses env fs dir name = false) :
    ∃ p : RenamePlan, p.Checked fs.leaves dir name (tempname name fs.counter) true := by
  obtain ⟨hid, hdt, hg⟩ := dumpsterRefuses_eq_false hd hr
  have hlegal := htidy.legal_of_file hl ht
  obtain ⟨hdm, hfm⟩ := h.lookup_iff.mp hl
  obtain ⟨dfattr, hdf⟩ := h.lookup_isSome du.id (name ++ (toString fs.counter).toList)
  refine ⟨⟨⟨dir, name, fa.id⟩, fa, du.id, name ++ (toString fs.counter).toList, dfattr.isSome⟩, ?_⟩
  refine
    { src := h.getDentry_iff.mpr ⟨hdm, rfl, rfl⟩
      target := ?_
      legal := legalname_append_digits hlegal fs.counter
      ne := fun hc => hid hc.1
      found := hl
      dst := ⟨dfattr, hdf, rfl, fun g hgs => ?_⟩
      loop := fun hc => absurd hc (by rw [ht]; decide) }
  · unfold renameTarget
    rw [if_pos (by simp [tempname]), splitPath_tempname hlegal, lookupPath_dumpster, hd]
    simp [hdt]
  · rw [hgs] at hdf
    exact ⟨rfl, (hg g hdf).1.trans ht.symm, fun hc => absurd hc (by rw [ht]; decide)⟩

/-- A file that is not busy is removed. -/
theorem removeF_idle_run {fuel : ℕ} {fa : MetaFattr} (h : Hierarchy fs.leaves) (hc : Counts fs.leaves)
    (hl : lookup fs.leaves dir name = some (some fa)) (ht : fa.type = .file)
    (hb : busy env fs.leaves fa = false) :
    ∃ fs', removeF (fuel + 1) env fs dir name = some (0, fs') := by
  have hcount := hc fa (lookup_mem hl) ht
  obtain ⟨l₁, l', h₁, h₂⟩ := removed_isSome h hl
  refine ⟨_, removeF_run hl ht (fun _ => hcount) (fun c hcm => ?_) h₁ h₂⟩
  rw [busy, Bool.and_eq_false_iff] at hb
  rcases hb with hb | hb
  · have := List.length_pos_of_mem hcm
    rw [decide_eq_false_iff_not] at hb
    omega
  · rw [List.any_eq_false] at hb
    exact Bool.eq_false_iff.mpr (hb c hcm)

/-- **A busy file is moved to a dumpster that does not refuse it.** -/
theorem moveToDumpster_zero (htidy : Tidy fs) (h : Hierarchy fs.leaves) (hc : Counts fs.leaves) {fa : MetaFattr}
    (hl : lookup fs.leaves dir name = some (some fa)) (ht : fa.type = .file)
    (hr : dumpsterRefuses env fs dir name = false)
    (hm : moveToDumpsterWith (removeF 1 env) env fs dir name = some (st, fs')) : st = 0 := by
  obtain ⟨du, fs₁, hg, hcase⟩ := moveToDumpsterWith_spec hm
  rcases getDumpster_spec hg with ⟨hd, rfl⟩ | ⟨hd, rfl, hf⟩
  · obtain ⟨hid, -, hgt⟩ := dumpsterRefuses_eq_false hd hr
    rcases hcase with ⟨he, -⟩ | ⟨-, hrn⟩
    · exact absurd he hid
    obtain ⟨p, hp⟩ := dumpster_checked htidy h hl ht hd hr
    rcases renameWith_spec hrn with ⟨he, -⟩ | ⟨p', hp', ⟨h0, hcl⟩ | ⟨h0, -⟩⟩
    · have hok := (renameCheck_iff.mpr hp).symm.trans he
      simp at hok
    · obtain ⟨hdd, hdn⟩ := tempname_renameTarget (htidy.legal_of_file hl ht) hd hp'.target
      obtain rfl : p'.sfattr = fa := by simpa using hp'.found.symm.trans hl
      unfold clearTarget at hcl
      rw [ht, if_neg (show ¬ FileType.file = .dir by decide), hdd, hdn] at hcl
      split_ifs at hcl with hex
      · obtain ⟨dfattr, hdf, hde, -⟩ := hp'.dst
        rw [hex, eq_comm] at hde
        obtain ⟨g, rfl⟩ := Option.isSome_iff_exists.mp hde
        change lookup fs₁.leaves p'.ddir p'.dname = some (some g) at hdf
        rw [hdd, hdn] at hdf
        obtain ⟨hty, hb⟩ := hgt g hdf
        obtain ⟨fs₂, hrun⟩ := @removeF_idle_run env { fs₁ with counter := fs₁.counter + 1 } du.id
          (name ++ (toString fs₁.counter).toList) 0 g h hc hdf hty hb
        have hst := hrun.symm.trans hcl
        simp only [Option.some.injEq, Prod.mk.injEq] at hst
        exact absurd hst.1.symm h0
      · simp only [Option.some.injEq, Prod.mk.injEq] at hcl
        exact absurd hcl.1.symm h0
    · exact h0
  · have hdu := lookup_withDumpster htidy hd hf
    rcases hcase with ⟨hid, -⟩ | ⟨-, hrn⟩
    · obtain ⟨hdm, -⟩ := h.lookup_iff.mp hl
      have hle := htidy.dir_le _ hdm
      rw [hdu] at hid
      change fs.fileID + 1 = dir at hid
      change dir ≤ fs.fileID at hle
      omega
    obtain ⟨p, hp, hex⟩ := fresh_checked htidy hl ht hd hf fs.counter
    rcases renameWith_spec hrn with ⟨he, -⟩ | ⟨p', hp', ⟨h0, hcl⟩ | ⟨h0, -⟩⟩
    · have hok := (renameCheck_iff.mpr hp).symm.trans he
      simp at hok
    · have hpp : some (Except.ok p) = some (.ok p') :=
        (renameCheck_iff.mpr hp).symm.trans (renameCheck_iff.mpr hp')
      obtain rfl : p = p' := by simpa using hpp
      simp only [clearTarget, hex, Bool.false_eq_true, if_false, Option.some.injEq, Prod.mk.injEq] at hcl
      exact absurd hcl.1.symm h0
    · exact h0

/-- **`create` completes** unless it overwrites a busy file that the dumpster refuses. -/
theorem create_isSome (htidy : Tidy fs) (h : Hierarchy fs.leaves) (hc : Counts fs.leaves) (env : Env) (n : ℤ)
    {exclusive : Bool} (hs : exclusive = false → ∀ fa, lookup fs.leaves dir name = some (some fa) →
      fa.type = .file → busy env fs.leaves fa = true → dumpsterRefuses env fs dir name = false) :
    ∃ r, create env fs dir name 0 n exclusive = some r := by
  unfold create
  by_cases hn : ¬ legalname name = true
  · exact ⟨_, if_pos hn⟩
  rw [if_neg hn]
  by_cases hpos : n ≤ 0
  · exact ⟨_, if_pos hpos⟩
  rw [if_neg hpos]
  obtain ⟨o, ho⟩ := h.lookup_isSome dir name
  simp only [ho, Option.bind_eq_bind, Option.bind_some, Option.pure_def]
  by_cases ht : (o.any fun fa => fa.type ≠ .file) = true
  · exact ⟨_, if_pos ht⟩
  rw [if_neg ht]
  by_cases hex : o.isSome = true ∧ exclusive = true
  · exact ⟨_, if_pos hex⟩
  rw [if_neg hex]
  -- the old file, if there is one, is removed or moved away
  have hold : ∃ fs₁, removeOld env fs dir name o = some (0, fs₁) := by
    unfold removeOld
    rcases o with - | fa
    · exact ⟨fs, rfl⟩
    rw [Option.isSome_some, if_pos rfl]
    have ht : fa.type = .file := by simpa using ht
    have hexcl : exclusive = false := by simpa using hex
    cases hb : busy env fs.leaves fa with
    | false => exact removeF_idle_run h hc ho ht hb
    | true =>
      obtain ⟨⟨st, fs'⟩, hm⟩ := @moveToDumpster_isSome env fs dir name htidy h hc fa ho ht
      obtain rfl := moveToDumpster_zero htidy h hc ho ht (hs hexcl fa ho ht hb) hm
      refine ⟨fs', ?_⟩
      have hcount := hc fa (lookup_mem ho) ht
      rw [busy, Bool.and_eq_true, decide_eq_true_eq] at hb
      unfold remove removeF
      simp only [ho, Option.bind_eq_bind, Option.bind_some, ht, ne_eq, not_true_eq_false, if_false]
      rw [if_neg fun hcc => hcc.2 hcount, if_pos hb]
      exact hm
  obtain ⟨fs₁, hr⟩ := hold
  have hlegal : legalname name = true := not_not.mp hn
  simp only [hr, Option.bind_some]
  rw [if_neg (show ¬ (0 : ℤ) = -EBUSY by decide), if_neg (by simp)]
  simp only [link, hlegal, if_true]
  split_ifs
  · exact ⟨_, rfl⟩
  · exact ⟨_, rfl⟩

end Kfs
