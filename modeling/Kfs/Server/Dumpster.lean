import Kfs.Server.Alive

/-!
# Removals and the dumpster

* `DumpsterAt`: `/dumpster` is a directory; `removeF_dumpster`, `renameWith_dumpster`: the operations keep it;
* `Stays`: a file is in a directory, with its chunks;
* `remove_keeps_busy`, `remove_other`, `remove_stays`: what a removal does to the busy files in the dumpster, to
  the files of other names, and to a busy file.
-/

namespace Kfs

variable {env : Env} {fs fs' : Fs} {l l' : List Meta} {dir fid st D : ℤ} {name : Str} {d : MetaDentry}

/-! ## The directory -/

/-- `/dumpster` is the directory `D`. -/
structure DumpsterAt (l : List Meta) (D : ℤ) : Prop where
  mem : .dentry ⟨ROOTFID, DUMPSTERDIR, D⟩ ∈ l
  dir : ∃ f, .fattr f ∈ l ∧ f.id = D ∧ f.type = .dir

theorem dumpsterdir_not_dot : ¬ isDot DUMPSTERDIR := by decide

namespace DumpsterAt

theorem lookup (h : Hierarchy l) (hD : DumpsterAt l D) :
    ∃ du, lookup l ROOTFID DUMPSTERDIR = some (some du) ∧ du.id = D ∧ du.type = .dir := by
  obtain ⟨f, hf, rfl, hft⟩ := hD.dir
  exact ⟨f, h.lookup_iff.mpr ⟨hD.mem, hf⟩, rfl, hft⟩

theorem id_eq (h : Hierarchy l) (hD : DumpsterAt l D) {du : MetaFattr}
    (hl : Kfs.lookup l ROOTFID DUMPSTERDIR = some (some du)) : du.id = D := by
  obtain ⟨du', hl', hid, -⟩ := hD.lookup h
  obtain rfl : du = du' := by simpa using hl.symm.trans hl'
  exact hid

theorem of_subset (hD : DumpsterAt l D) (hs : l ⊆ l') : DumpsterAt l' D := by
  obtain ⟨f, hf, hfi, hft⟩ := hD.dir
  exact ⟨hs hD.mem, f, hs hf, hfi, hft⟩

/-- The directory does not depend on the chunks, nor on other attributes than the type. -/
theorem update (hD : DumpsterAt l D) {k : Key} {g : Meta → Meta}
    (hg : ∀ z ∈ l, z.key.eqv k = true → z.Similar (g z)) : DumpsterAt (Leaves.update l k g) D :=
  ⟨dentry_update hg hD.mem, attr_update hg hD.dir⟩

theorem setFattr (h : Hierarchy l) (hD : DumpsterAt l D) {f g : MetaFattr} (hf : getFattr l fid = some f)
    (hid : g.id = f.id) (ht : g.type = f.type) : DumpsterAt (setFattr l fid g) D :=
  hD.update (similar_setFattr h hf hid ht)

/-- The directory is no file. -/
theorem ne_file (h : Hierarchy l) (hD : DumpsterAt l D) {fa : MetaFattr} (hfa : .fattr fa ∈ l)
    (ht : fa.type = .file) : D ≠ fa.id := by
  obtain ⟨f, hf, hfi, hft⟩ := hD.dir
  intro hc
  rw [h.uniq.eq_of_id hf hfa (hfi.trans hc), ht] at hft
  exact absurd hft (by decide)

end DumpsterAt

theorem rmdir_dumpster (h : Hierarchy fs.leaves) (hD : DumpsterAt fs.leaves D) {dname : Str}
    (hr : rmdir fs dir dname = some (st, fs')) : DumpsterAt fs'.leaves D := by
  rcases rmdir_spec hr with ⟨-, rfl⟩ | ⟨-, fa, l', hdone, rfl⟩
  · exact hD
  obtain ⟨hem, -⟩ := hdone.found_mem h
  obtain ⟨f, hf, hfi, hft⟩ := hD.dir
  have hne : D ≠ fa.id := by
    intro hc
    have he := h.home_eq _ _ hD.mem hem dumpsterdir_not_dot (not_or.mpr hdone.not_dot) hc
    rw [MetaDentry.mk.injEq] at he
    exact hdone.not_dumpster ⟨he.1.symm, he.2.1.symm⟩
  refine ⟨(hdone.mem h.uniq _).mpr ⟨hD.mem, ?_, ?_, ?_, ?_⟩, f, (hdone.mem_fattr h f).mpr ⟨hf, hfi ▸ hne⟩, hfi, hft⟩
  · simp [Meta.slot, show ¬ DUMPSTERDIR = ['.'] by decide]
  · simp [Meta.slot, show ¬ DUMPSTERDIR = ['.', '.'] by decide]
  · simp only [Meta.slot, ne_eq, Slot.dent.injEq]
    exact fun hc => hdone.not_dumpster ⟨hc.1.symm, hc.2.symm⟩
  · simp [Meta.slot]

/-- The removals that `rename` is run with keep the dumpster. -/
def Guards (rm : Fs → ℤ → Str → Option (ℤ × Fs)) : Prop :=
  ∀ ⦃fs dir name st fs' D⦄, Tidy fs → Hierarchy fs.leaves → DumpsterAt fs.leaves D →
    rm fs dir name = some (st, fs') → DumpsterAt fs'.leaves D

section

variable {rm : Fs → ℤ → Str → Option (ℤ × Fs)} {parent : ℤ} {oldname newname : Str} {overwrite : Bool}

/-- **A renaming keeps the dumpster** unless it is its source. -/
theorem renameWith_dumpster (hg : Guards rm) (hrm : Moves rm) (hat : RmAtomic rm) (htidy : Tidy fs)
    (h : Hierarchy fs.leaves) (hD : DumpsterAt fs.leaves D)
    (hsrc : ∀ p : RenamePlan, p.Checked fs.leaves parent oldname newname overwrite →
      p.src ≠ ⟨ROOTFID, DUMPSTERDIR, D⟩)
    (hr : renameWith rm env fs parent oldname newname overwrite = some (st, fs')) : DumpsterAt fs'.leaves D := by
  by_cases hst : st = 0
  swap
  · rw [renameWith_atomic hat htidy hr hst]
    exact hD
  rcases renameWith_spec hr with ⟨-, rfl⟩ | ⟨p, hp, ⟨h0, -⟩ | ⟨-, fs₁, l', hc, hl, rfl⟩⟩
  · exact hD
  · exact absurd hst h0
  have h₁ : Hierarchy fs₁.leaves := (clearTarget_cleared hrm htidy h hp hc).hier
  have hD₁ : DumpsterAt fs₁.leaves D := by
    unfold clearTarget at hc
    split_ifs at hc
    · exact rmdir_dumpster h hD hc
    · exact hg htidy h hD hc
    · obtain ⟨-, rfl⟩ : 0 = (0 : ℤ) ∧ fs = fs₁ := by simpa using hc
      exact hD
  obtain ⟨f, hf, hfi, hft⟩ := hD₁.dir
  refine ⟨relink_keeps h₁.uniq hl hD₁.mem ?_ ?_, f, relink_keeps h₁.uniq hl hf (by simp) (by simp), hfi, hft⟩
  · rw [ne_eq, Meta.dentry.injEq]
    exact (hsrc p hp).symm
  · intro e he
    rw [← Meta.dentry.inj he]
    exact dumpsterdir_not_dot

end

/-- A removal of a file keeps the dumpster. -/
theorem removed_dumpster (h : Hierarchy fs.leaves) {fa : MetaFattr} {l₁ : List Meta}
    (hl : lookup fs.leaves dir name = some (some fa)) (ht : fa.type = .file)
    (h₁ : dropChunks fs.leaves fa (getalloc fs.leaves fa.id) = some l₁)
    (h₂ : unlink l₁ dir name fa false = some l') (hD : DumpsterAt fs.leaves D) : DumpsterAt l' D := by
  obtain ⟨hdm, hfm⟩ := h.lookup_iff.mp hl
  obtain ⟨f, hf, hfi, hft⟩ := hD.dir
  obtain ⟨hs, hm⟩ := dropChunks_mem h₁
  refine ⟨(mem_unlink (h.uniq.sublist hs) h₂).mpr ⟨(hm _ (by simp)).mpr hD.mem, ?_, by simp [Meta.slot]⟩, f,
    (removed_moved h hl ht h₁ h₂).dirs f hf hft, hfi, hft⟩
  simp only [Meta.slot, ne_eq, Slot.dent.injEq]
  intro hc
  have he := h.uniq.eq_of_name hD.mem hdm hc.1 hc.2
  rw [MetaDentry.mk.injEq] at he
  exact hD.ne_file h hfm ht he.2.2

theorem moveToDumpsterWith_keeps {rm : Fs → ℤ → Str → Option (ℤ × Fs)} (hg : Guards rm) (hrm : Moves rm)
    (hat : RmAtomic rm) (htidy : Tidy fs) (h : Hierarchy fs.leaves) {fa : MetaFattr}
    (hl : lookup fs.leaves dir name = some (some fa)) (ht : fa.type = .file) (hD : DumpsterAt fs.leaves D)
    (hm : moveToDumpsterWith rm env fs dir name = some (st, fs')) : DumpsterAt fs'.leaves D := by
  obtain ⟨du, fs₁, hgd, hcase⟩ := moveToDumpsterWith_spec hm
  obtain ⟨h₁, -, hsub, -⟩ := getDumpster_hier htidy h hgd
  have hD₁ : DumpsterAt fs₁.leaves D := hD.of_subset fun x hx => hsub x hx
  rcases hcase with ⟨-, -, rfl⟩ | ⟨-, hr⟩
  · exact hD₁
  obtain ⟨htidy₁, -⟩ := getDumpster_tidy htidy hgd
  have htidy₂ : Tidy { fs₁ with counter := fs₁.counter + 1 } :=
    htidy₁.of_imp le_rfl (fun _ hm => hm) fun g hg => ⟨g, hg, rfl, rfl⟩
  obtain ⟨hdm, hfm⟩ := h.lookup_iff.mp hl
  refine renameWith_dumpster hg hrm hat htidy₂ h₁ hD₁ (fun p hp hc => ?_) hr
  -- the source is a file
  obtain ⟨hsm, hsd, hsn, -⟩ := hp.mem h₁
  have he := h₁.uniq.eq_of_name hsm (hsub _ hdm) hsd hsn
  rw [hc, MetaDentry.mk.injEq] at he
  exact hD.ne_file h hfm ht he.2.2

/-- **`remove` keeps the dumpster.** -/
theorem removeF_dumpster (env : Env) : ∀ fuel, Guards (removeF fuel env)
  | 0 => by
    intro fs dir name st fs' D _ _ _ hr
    simp [removeF] at hr
  | fuel + 1 => by
    intro fs dir name st fs' D htidy h hD hr
    rcases removeF_spec hr with ⟨-, rfl⟩ | ⟨fa, hl, ht, -, ⟨-, -, hm⟩ | ⟨-, -, l₁, l', h₁, h₂, rfl⟩⟩
    · exact hD
    · exact moveToDumpsterWith_keeps (removeF_dumpster env fuel) (removeF_moves env fuel)
        (removeF_atomic env fuel) htidy h hl ht hD hm
    · exact removed_dumpster h hl ht h₁ h₂ hD

/-! ## Files in the dumpster -/

/-- The entry of a file with a chunk that is leased. -/
def Busy (env : Env) (l : List Meta) (d : MetaDentry) : Prop :=
  .dentry d ∈ l ∧ ∃ f, .fattr f ∈ l ∧ f.id = d.id ∧ f.type = .file ∧ busy env l f = true

theorem Busy.entry (hb : Busy env l d) : FileEntry l d := by
  obtain ⟨hd, f, hf, hfi, hft, -⟩ := hb
  exact ⟨hd, f, hf, hfi, hft⟩

theorem Busy.lookup (h : Hierarchy l) (hb : Busy env l d) : ∃ fa, lookup l d.dir d.name = some (some fa) ∧
    fa.id = d.id ∧ fa.type = .file ∧ busy env l fa = true := by
  obtain ⟨hd, f, hf, hfi, hft, hbusy⟩ := hb
  exact ⟨f, h.lookup_iff.mpr ⟨by rw [hfi]; exact hd, hf⟩, hfi, hft, hbusy⟩

/-- A file that keeps its attributes and its chunks is still busy. -/
theorem Busy.carried (h : Hierarchy fs.leaves) (hc : Carried fs fs') (hk : Kept fs.leaves fs'.leaves d)
    (hb : Busy env fs.leaves d) : Busy env fs'.leaves d := by
  obtain ⟨-, f, hf, hfi, -, hbusy⟩ := hb
  obtain ⟨g, hg, hgi, hgt⟩ := hk.file
  rcases hc.attr g hg with ⟨hdir, -⟩ | ⟨hgm, hch⟩
  · rw [hgt] at hdir
    exact absurd hdir (by decide)
  obtain rfl := h.uniq.eq_of_id hgm hf (hgi.trans hfi.symm)
  refine ⟨hk.mem, g, hg, hgi, hgt, ?_⟩
  rw [busy, Bool.and_eq_true, List.any_eq_true] at hbusy ⊢
  obtain ⟨hcount, c, hcm, hlease⟩ := hbusy
  rw [mem_getalloc] at hcm
  exact ⟨hcount, c, mem_getalloc.mpr ⟨(hch c hcm.2).mpr hcm.1, hcm.2⟩, hlease⟩

/-- A busy file in the dumpster is not removed. -/
theorem removeF_refused {fuel : ℕ} (h : Hierarchy fs.leaves) (hD : DumpsterAt fs.leaves D)
    (hb : Busy env fs.leaves ⟨D, name, fid⟩) (hr : removeF (fuel + 1) env fs D name = some (st, fs')) :
    st < 0 ∧ fs' = fs := by
  obtain ⟨fa, hl, -, -, hbusy⟩ := hb.lookup h
  obtain ⟨du, hdump, hid, -⟩ := hD.lookup h
  rcases removeF_spec hr with hfail | ⟨fa', hl', -, -, ⟨-, -, hm⟩ | ⟨hidle, -⟩⟩
  · exact hfail
  · rw [moveToDumpsterWith_dumpster hdump hid] at hm
    obtain ⟨rfl, rfl⟩ : -EEXIST = st ∧ fs = fs' := by simpa using hm
    exact ⟨by decide, rfl⟩
  · obtain rfl : fa = fa' := by simpa using hl.symm.trans hl'
    rw [busy, Bool.and_eq_true, decide_eq_true_iff, List.any_eq_true] at hbusy
    exact absurd hbusy hidle

/-- How a busy file outside the dumpster is moved to it. -/
theorem remove_diverts (htidy : Tidy fs) (h : Hierarchy fs.leaves) (hD : DumpsterAt fs.leaves D)
    {fa : MetaFattr} (hl : lookup fs.leaves dir name = some (some fa)) (ht : fa.type = .file)
    (hb : busy env fs.leaves fa = true) (hne : dir ≠ D) (hr : remove env fs dir name = some (0, fs')) :
    ∃ p fs₁ l', p.Checked fs.leaves dir name (tempname name fs.counter) true ∧ p.sfattr = fa ∧ p.ddir = D ∧
      p.dname = name ++ (toString fs.counter).toList ∧
      clearTarget (removeF 1 env) { fs with counter := fs.counter + 1 } p = some (0, fs₁) ∧
      relink env fs₁.leaves p = some l' ∧ fs' = { fs₁ with leaves := l' } := by
  obtain ⟨du, hdump, hid, -⟩ := hD.lookup h
  rcases removeF_spec hr with ⟨h0, -⟩ | ⟨fa', hl', -, -, ⟨-, -, hm⟩ | ⟨hidle, -⟩⟩
  · exact absurd h0 (by decide)
  · obtain ⟨du', fs₁, hg, ⟨-, h0, -⟩ | ⟨-, hrn⟩⟩ := moveToDumpsterWith_spec hm
    · exact absurd h0 (by decide)
    rcases getDumpster_spec hg with ⟨-, rfl⟩ | ⟨hnone, -⟩
    · have htarget : ∀ {ddir dname}, renameTarget fs₁.leaves dir (tempname name fs₁.counter) =
          some (.ok (ddir, dname)) → ddir = D ∧ dname = name ++ (toString fs₁.counter).toList := by
        intro ddir dname htg
        obtain ⟨hdd, hdn⟩ := tempname_renameTarget (htidy.legal_of_file hl ht) hdump htg
        exact ⟨hdd.trans hid, hdn⟩
      rcases renameWith_spec hrn with ⟨hc, -⟩ | ⟨p, hp, ⟨h0, -⟩ | ⟨-, fs₂, l', hc, hlk, rfl⟩⟩
      · obtain ⟨-, htg, -⟩ := renameCheck_zero_iff.mp hc
        exact absurd (htarget htg).1 hne
      · exact absurd rfl h0
      · obtain rfl : p.sfattr = fa := by simpa using hp.found.symm.trans hl
        exact ⟨p, fs₂, l', hp, rfl, (htarget hp.target).1, (htarget hp.target).2, hc, hlk, rfl⟩
    · rw [hdump] at hnone
      simp at hnone
  · obtain rfl : fa = fa' := by simpa using hl.symm.trans hl'
    rw [busy, Bool.and_eq_true, decide_eq_true_iff, List.any_eq_true] at hb
    exact absurd hb hidle

/-- **A removal leaves the files of other names alone**, also one in the dumpster that has the next name for
the file, as long as that one is busy. -/
theorem remove_other (htidy : Tidy fs) (h : Hierarchy fs.leaves) (hD : DumpsterAt fs.leaves D)
    (hd : FileEntry fs.leaves d) (hne : ¬ (d.dir = dir ∧ d.name = name))
    (hrep : ∀ fa, lookup fs.leaves dir name = some (some fa) → fa.type = .file →
      busy env fs.leaves fa = true → dir ≠ D → d.dir = D → d.name = name ++ (toString fs.counter).toList →
      Busy env fs.leaves d)
    (hr : remove env fs dir name = some (st, fs')) : Kept fs.leaves fs'.leaves d := by
  by_cases hst : st = 0
  swap
  · rw [removeF_atomic env 2 htidy hr hst]
    exact hd.kept
  subst hst
  by_cases hsp : Spared env fs dir name d
  · exact removeF_kept env 2 htidy h hd hsp hr
  -- the file would have to be removed from the dumpster
  exfalso
  refine hsp ⟨hne, fun fa hl hb du hdu hdir hc => ?_⟩
  have hid := hD.id_eq h hdu
  rw [hid] at hdir hc
  rcases removeF_spec hr with ⟨h0, -⟩ | ⟨fa', hl', ht, -, -⟩
  · exact absurd h0 (by decide)
  obtain rfl : fa = fa' := by simpa using hl.symm.trans hl'
  have hbusy := hrep fa hl ht hb hdir.symm hc.1 hc.2
  obtain ⟨p, fs₁, l', hp, rfl, hdd, hdn, hcl, -, -⟩ := remove_diverts htidy h hD hl ht hb hdir.symm hr
  obtain ⟨g, hg, -⟩ := hbusy.lookup h
  obtain ⟨dfattr, hdf, hex, -⟩ := hp.dst
  rw [hdd, hdn, ← hc.1, ← hc.2, hg, Option.some_inj] at hdf
  rw [← hdf, Option.isSome_some] at hex
  unfold clearTarget at hcl
  rw [if_pos hex, ht, if_neg (show ¬ FileType.file = .dir by decide), hdd, hdn] at hcl
  have hb' : Busy env { fs with counter := fs.counter + 1 }.leaves
      ⟨D, name ++ (toString fs.counter).toList, d.id⟩ := by
    rw [← hc.1, ← hc.2]
    exact hbusy
  obtain ⟨h0, -⟩ := @removeF_refused env { fs with counter := fs.counter + 1 } fs₁ d.id 0 D _ 0 h hD hb' hcl
  exact absurd h0 (by decide)

/-- **A busy file in the dumpster stays there**, whatever is removed. -/
theorem remove_keeps_busy (htidy : Tidy fs) (h : Hierarchy fs.leaves) (hD : DumpsterAt fs.leaves D)
    (hb : Busy env fs.leaves d) (hdir : d.dir = D) (hr : remove env fs dir name = some (st, fs')) :
    Kept fs.leaves fs'.leaves d := by
  by_cases hne : d.dir = dir ∧ d.name = name
  · obtain ⟨rfl, rfl⟩ := hne
    subst hdir
    rw [(removeF_refused h hD hb hr).2]
    exact hb.entry.kept
  · exact remove_other htidy h hD hb.entry hne (fun _ _ _ _ _ _ _ => hb) hr

/-- The file is in the directory `D`, with all the chunks that it had. -/
structure Stays (l l' : List Meta) (D fid : ℤ) : Prop where
  entry : ∃ d, FileEntry l' d ∧ d.dir = D ∧ d.id = fid
  chunks : ∀ c, .chunkinfo c ∈ l → c.id = fid → .chunkinfo c ∈ l'

theorem Kept.stays (hk : Kept l l' d) : Stays l l' d.dir d.id := ⟨⟨d, hk.entry, rfl, rfl⟩, hk.chunks⟩

/-- **The source of a renaming** is in the directory of the target, with its chunks. -/
theorem relink_stays {p : RenamePlan} {fs₁ : Fs} (h₁ : Hierarchy fs₁.leaves) (ht : p.sfattr.type = .file)
    (hk : Kept l fs₁.leaves p.src) (hr : relink env fs₁.leaves p = some l') : Stays l l' p.ddir p.src.id := by
  obtain ⟨f, hf, hfi, hft⟩ := hk.file
  have hkeep : ∀ x ∈ fs₁.leaves, (∀ e, x ≠ .dentry e) → x ∈ l' := fun x hx hxe =>
    relink_keeps h₁.uniq hr hx (hxe _) fun e he => absurd he (hxe e)
  refine ⟨⟨⟨p.ddir, p.dname, p.src.id⟩, ⟨?_, f, hkeep _ hf (by simp), hfi, hft⟩, rfl, rfl⟩,
    fun c hc hi => hkeep _ (hk.chunks c hc hi) (by simp)⟩
  obtain ⟨-, hr⟩ := relink_spec hr
  rw [if_neg (by rw [ht]; decide)] at hr
  obtain ⟨l₂, -, rfl⟩ := hr
  exact Leaves.mem_insert.mpr (Or.inl rfl)

/-- **A busy file moves to the dumpster** with its chunks. -/
theorem remove_stays (htidy : Tidy fs) (h : Hierarchy fs.leaves) (hD : DumpsterAt fs.leaves D)
    {fa : MetaFattr} (hl : lookup fs.leaves dir name = some (some fa)) (ht : fa.type = .file)
    (hb : busy env fs.leaves fa = true) (hne : dir ≠ D) (hr : remove env fs dir name = some (0, fs')) :
    Stays fs.leaves fs'.leaves D fa.id := by
  obtain ⟨p, fs₁, l', hp, rfl, rfl, hdn, hcl, hlk, rfl⟩ := remove_diverts htidy h hD hl ht hb hne hr
  obtain ⟨hsm, hsd, hsn, hfm, hsi⟩ := hp.mem h
  have htidy' : Tidy { fs with counter := fs.counter + 1 } :=
    htidy.of_imp le_rfl (fun _ hm => hm) fun g hg => ⟨g, hg, rfl, rfl⟩
  have h₁ : Hierarchy fs₁.leaves := (clearTarget_cleared (removeF_moves env 1) htidy' h hp hcl).hier
  rw [← hsi]
  refine relink_stays h₁ ht ?_ hlk
  have hsrc : FileEntry fs.leaves p.src := hp.entry h ht
  unfold clearTarget at hcl
  rw [if_neg (show ¬ p.sfattr.type = .dir by rw [ht]; decide)] at hcl
  split_ifs at hcl
  · have hsp : Spared env { fs with counter := fs.counter + 1 } p.ddir p.dname p.src := by
      refine ⟨fun hc => hne (hsd.symm.trans hc.1), fun _ _ _ du hdu hdir => ?_⟩
      exact absurd (hD.id_eq h hdu) hdir
    have hk := removeF_kept env 1 htidy' h hsrc hsp hcl
    exact hk
  · obtain ⟨-, rfl⟩ : 0 = (0 : ℤ) ∧ { fs with counter := fs.counter + 1 } = fs₁ := by simpa using hcl
    exact hsrc.kept

end Kfs
