import Kfs.Server.Intact

/-!
# Files that an operation leaves alone

* `FileEntry`, `Kept`: the entry of a file, and what an operation that leaves the file alone keeps of it;
* `Spared`: the files that a removal leaves alone, also when it is diverted to the dumpster;
* `removed_kept`, `rmdir_kept`, `renameWith_kept`, `removeF_kept`, `mkdir_kept`.
-/

namespace Kfs

variable {env : Env} {fs fs' : Fs} {l l' l'' : List Meta} {dir fid st : ℤ} {name : Str} {d : MetaDentry}

/-- The entry of a file. -/
structure FileEntry (l : List Meta) (d : MetaDentry) : Prop where
  mem : .dentry d ∈ l
  file : ∃ f, .fattr f ∈ l ∧ f.id = d.id ∧ f.type = .file

/-- The file still has its entry, with its id, and all the chunks that it had. -/
structure Kept (l l' : List Meta) (d : MetaDentry) : Prop where
  mem : .dentry d ∈ l'
  file : ∃ f, .fattr f ∈ l' ∧ f.id = d.id ∧ f.type = .file
  chunks : ∀ c, .chunkinfo c ∈ l → c.id = d.id → .chunkinfo c ∈ l'

theorem FileEntry.kept (h : FileEntry l d) : Kept l l d := ⟨h.mem, h.file, fun _ hc _ => hc⟩

theorem Kept.trans (h₁ : Kept l l' d) (h₂ : Kept l' l'' d) : Kept l l'' d :=
  ⟨h₂.mem, h₂.file, fun c hc hi => h₂.chunks c (h₁.chunks c hc hi) hi⟩

theorem Kept.entry (h : Kept l l' d) : FileEntry l' d := ⟨h.mem, h.file⟩

/-- The items of the file with the entry `d`. -/
def Meta.PartOf (d : MetaDentry) : Meta → Prop
  | .dentry e => e = d
  | .fattr f => f.id = d.id ∧ f.type = .file
  | .chunkinfo c => c.id = d.id

theorem FileEntry.kept_of (h : FileEntry l d) (hx : ∀ x ∈ l, x.PartOf d → x ∈ l') : Kept l l' d := by
  obtain ⟨f, hf, hfi, hft⟩ := h.file
  exact ⟨hx _ h.mem rfl, ⟨f, hx _ hf ⟨hfi, hft⟩, hfi, hft⟩, fun c hc hi => hx _ hc hi⟩

theorem FileEntry.not_dot (h : Hierarchy l) (hd : FileEntry l d) : ¬ isDot d.name := by
  intro hn
  obtain ⟨f, hf, hfi, hft⟩ := hd.file
  obtain ⟨g, hg, hgi, hgt⟩ := h.dot_dir hd.mem hn
  rw [h.uniq.eq_of_id hg hf (hgi.trans hfi.symm), hft] at hgt
  exact absurd hgt (by decide)

/-- A file has one entry. -/
theorem FileEntry.eq_entry (h : Hierarchy l) (hd : FileEntry l d) {e : MetaDentry} (he : .dentry e ∈ l)
    (hi : e.id = d.id) : e = d := by
  obtain ⟨f, hf, hfi, hft⟩ := hd.file
  refine h.home_eq e d he hd.mem (fun hn => ?_) (hd.not_dot h) hi
  obtain ⟨g, hg, hgi, hgt⟩ := h.dot_dir he hn
  rw [h.uniq.eq_of_id hg hf (hgi.trans (hi.trans hfi.symm)), hft] at hgt
  exact absurd hgt (by decide)

/-! ## The changes of the sequence -/

/-- A removal of chunks leaves those of other files. -/
theorem deleteChunks_other {e : MetaChunkInfo} : ∀ {cs : List MetaChunkInfo} {l : List Meta},
    deleteChunks l cs = some l' → (∀ c ∈ cs, c.id ≠ e.id) → (.chunkinfo e ∈ l' ↔ .chunkinfo e ∈ l)
  | [], l, h, _ => by
    obtain rfl : l = l' := by simpa [deleteChunks] using h
    exact Iff.rfl
  | c :: cs, l, h, hne => by
    simp only [deleteChunks, List.foldlM_cons, Option.bind_eq_bind, Option.bind_eq_some_iff] at h
    obtain ⟨l₁, h₁, h₂⟩ := h
    rw [deleteChunks_other h₂ fun c' hc' => hne c' (List.mem_cons_of_mem _ hc')]
    refine mem_delOk_of_miss h₁ (Bool.eq_false_iff.mpr fun hh => ?_)
    rcases hits_kind hh with ⟨-, hid⟩ | ⟨_, _, hc, -⟩
    · exact hne c List.mem_cons_self hid
    · simp at hc

theorem dropChunks_other {fa : MetaFattr} {e : MetaChunkInfo}
    (h : dropChunks l fa (getalloc l fa.id) = some l') (hne : e.id ≠ fa.id) :
    .chunkinfo e ∈ l' ↔ .chunkinfo e ∈ l := by
  unfold dropChunks at h
  split_ifs at h
  · refine deleteChunks_other h fun c hc => ?_
    rw [getalloc_eq, List.mem_filter, decide_eq_true_eq] at hc
    rw [hc.2]
    exact hne.symm
  · rw [Option.some.inj h]

section

variable {k : Key} {g : Meta → Meta}

/-- Overwriting by similar items keeps the other items. -/
theorem mem_update_or (hg : ∀ z ∈ l, z.key.eqv k = true → z.Similar (g z)) {x : Meta} (hx : x ∈ l) :
    x ∈ Leaves.update l k g ∨ (x.key.eqv k = true ∧ x.Similar (g x) ∧ g x ∈ Leaves.update l k g) := by
  by_cases hk : ∃ z ∈ l, z.key.eqv k = true
  swap
  · push Not at hk
    rw [update_of_miss fun z hz => Bool.eq_false_iff.mpr (hk z hz)]
    exact Or.inl hx
  obtain ⟨z, r, hz, hp, hp'⟩ := update_perm (g := g) hk
  rcases List.mem_cons.mp (hp.mem_iff.mp hx) with rfl | hxr
  · exact Or.inr ⟨hz, hg x hx hz, hp'.mem_iff.mpr List.mem_cons_self⟩
  · exact Or.inl (hp'.mem_iff.mpr (List.mem_cons_of_mem _ hxr))

theorem dentry_update (hg : ∀ z ∈ l, z.key.eqv k = true → z.Similar (g z)) (hd : .dentry d ∈ l) :
    .dentry d ∈ Leaves.update l k g := by
  rcases mem_update_or hg hd with hm | ⟨-, hs, -⟩
  · exact hm
  · exact hs.elim

theorem attr_update (hg : ∀ z ∈ l, z.key.eqv k = true → z.Similar (g z)) {t : FileType}
    (hf : ∃ f, .fattr f ∈ l ∧ f.id = fid ∧ f.type = t) :
    ∃ f, .fattr f ∈ Leaves.update l k g ∧ f.id = fid ∧ f.type = t := by
  obtain ⟨f, hf, hfi, hft⟩ := hf
  rcases mem_update_or hg hf with hm | ⟨-, hs, hm⟩
  · exact ⟨f, hm, hfi, hft⟩
  · cases hgf : g (.fattr f) with
    | fattr f' =>
      rw [hgf] at hs hm
      exact ⟨f', hm, hs.1.trans hfi, hs.2.trans hft⟩
    | dentry e => rw [hgf] at hs; exact hs.elim
    | chunkinfo c => rw [hgf] at hs; exact hs.elim

/-- Overwriting keeps the file unless it is one of its chunks that is overwritten. -/
theorem FileEntry.update (hd : FileEntry l d) (hg : ∀ z ∈ l, z.key.eqv k = true → z.Similar (g z))
    (hne : ∀ c, .chunkinfo c ∈ l → (Meta.chunkinfo c).key.eqv k = true → c.id ≠ d.id) :
    Kept l (Leaves.update l k g) d := by
  refine ⟨dentry_update hg hd.mem, attr_update hg hd.file, fun c hc hi => ?_⟩
  rcases mem_update_or hg hc with hm | ⟨hk, -, -⟩
  · exact hm
  · exact absurd hi (hne c hc hk)

end

/-- Other attributes of the same type keep a file. -/
theorem FileEntry.setFattr (h : Hierarchy l) (hd : FileEntry l d) {f g : MetaFattr}
    (hf : getFattr l fid = some f) (hid : g.id = f.id) (ht : g.type = f.type) : Kept l (setFattr l fid g) d := by
  refine hd.update (similar_setFattr h hf hid ht) fun c _ hk => ?_
  obtain ⟨f, hf, -⟩ := (eqv_fattr _ fid).mp hk
  simp at hf

/-! ## Removing -/

/-- The file of another name stays when a file is removed. -/
theorem removed_kept (h : Hierarchy fs.leaves) {fa : MetaFattr} {l₁ : List Meta}
    (hl : lookup fs.leaves dir name = some (some fa))
    (h₁ : dropChunks fs.leaves fa (getalloc fs.leaves fa.id) = some l₁)
    (h₂ : unlink l₁ dir name fa false = some l') (hd : FileEntry fs.leaves d)
    (hne : d ≠ ⟨dir, name, fa.id⟩) : Kept fs.leaves l' d := by
  obtain ⟨hdm, -⟩ := h.lookup_iff.mp hl
  have hid : d.id ≠ fa.id := fun hc => hne (hd.eq_entry h hdm hc.symm).symm
  obtain ⟨hs, hm⟩ := dropChunks_mem h₁
  refine hd.kept_of fun x hx hpart => ?_
  rw [mem_unlink (h.uniq.sublist hs) h₂]
  cases x with
  | dentry e =>
    obtain rfl := hpart
    refine ⟨(hm _ (by simp)).mpr hx, fun hc => hne ?_, by simp [Meta.slot]⟩
    simp only [Meta.slot, Slot.dent.injEq] at hc
    exact h.uniq.eq_of_name hx hdm hc.1 hc.2
  | fattr f =>
    refine ⟨(hm _ (by simp)).mpr hx, by simp [Meta.slot], fun hc => hid ?_⟩
    simp only [Meta.slot, Slot.attr.injEq] at hc
    exact hpart.1.symm.trans hc
  | chunkinfo c =>
    exact ⟨(dropChunks_other h₁ (hpart.trans_ne hid)).mpr hx, by simp [Meta.slot], by simp [Meta.slot]⟩

theorem rmdir_kept (h : Hierarchy fs.leaves) {dname : Str} (hd : FileEntry fs.leaves d)
    (hr : rmdir fs dir dname = some (st, fs')) : Kept fs.leaves fs'.leaves d := by
  rcases rmdir_spec hr with ⟨-, rfl⟩ | ⟨-, fa, l', hdone, rfl⟩
  · exact hd.kept
  obtain ⟨hem, hfam⟩ := hdone.found_mem h
  obtain ⟨f, hf, hfi, hft⟩ := hd.file
  have hid : d.id ≠ fa.id := by
    intro hc
    have hty := hdone.type
    rw [h.uniq.eq_of_id hfam hf (hc.symm.trans hfi.symm), hft] at hty
    exact absurd hty (by decide)
  have hnd := not_or.mp (hd.not_dot h)
  refine hd.kept_of fun x hx hpart => (hdone.mem h.uniq x).mpr ⟨hx, ?_⟩
  cases x with
  | dentry e =>
    obtain rfl := hpart
    simp only [Meta.slot, ne_eq, Slot.dent.injEq, reduceCtorEq, not_false_eq_true, and_true]
    refine ⟨fun hc => hnd.1 hc.2, fun hc => hnd.2 hc.2, fun hc => hid ?_⟩
    rw [h.uniq.eq_of_name hx hem hc.1 hc.2]
  | fattr g =>
    simp only [Meta.slot, ne_eq, reduceCtorEq, not_false_eq_true, true_and, Slot.attr.injEq]
    exact fun hc => hid (hpart.1.symm.trans hc)
  | chunkinfo c => simp [Meta.slot]

/-! ## Renaming -/

/-- The end of `rename` keeps everything but the entry of the source and its dot entry. -/
theorem relink_keeps {p : RenamePlan} (hu : Uniq l) (hr : relink env l p = some l') {x : Meta} (hx : x ∈ l)
    (hs : x ≠ .dentry p.src) (hn : ∀ e, x = .dentry e → ¬ isDot e.name) : x ∈ l' := by
  obtain ⟨hsm, hr⟩ := relink_spec hr
  have hslot : x.slot ≠ (Meta.dentry p.src).slot := fun hc => hs (hu.eq_of_slot hx hsm hc)
  split_ifs at hr
  · obtain ⟨-, l₁, l₂, h₁, h₂, rfl⟩ := hr
    rw [Leaves.mem_insert, Leaves.mem_insert, (hu.delOk h₁).mem_delOk (plain_dentry _) h₂,
      hu.mem_delOk (plain_dentry _) h₁]
    refine Or.inr (Or.inr ⟨⟨hx, fun hc => ?_⟩, hslot⟩)
    cases x with
    | dentry e =>
      simp only [Meta.slot, Slot.dent.injEq] at hc
      exact hn e rfl (Or.inr hc.2)
    | fattr f => simp [Meta.slot] at hc
    | chunkinfo c => simp [Meta.slot] at hc
  · obtain ⟨l₂, h₂, rfl⟩ := hr
    rw [Leaves.mem_insert, hu.mem_delOk (plain_dentry _) h₂]
    exact Or.inr ⟨hx, hslot⟩

section

variable {rm : Fs → ℤ → Str → Option (ℤ × Fs)} {parent : ℤ} {oldname newname : Str} {overwrite : Bool}

/-- **A renaming keeps a file** that is neither its source nor taken away with its target. -/
theorem renameWith_kept (hrm : Moves rm) (hat : RmAtomic rm) (htidy : Tidy fs) (h : Hierarchy fs.leaves)
    (hd : FileEntry fs.leaves d)
    (hsrc : ∀ p : RenamePlan, p.Checked fs.leaves parent oldname newname overwrite → p.src ≠ d)
    (hdst : ∀ (p : RenamePlan) (fs₁ : Fs), p.Checked fs.leaves parent oldname newname overwrite →
      p.sfattr.type = .file → p.dexists = true → rm fs p.ddir p.dname = some (0, fs₁) →
      Kept fs.leaves fs₁.leaves d)
    (hr : renameWith rm env fs parent oldname newname overwrite = some (st, fs')) :
    Kept fs.leaves fs'.leaves d := by
  by_cases hst : st = 0
  swap
  · rw [renameWith_atomic hat htidy hr hst]
    exact hd.kept
  rcases renameWith_spec hr with ⟨-, rfl⟩ | ⟨p, hp, ⟨h0, -⟩ | ⟨-, fs₁, l', hc, hl, rfl⟩⟩
  · exact hd.kept
  · exact absurd hst h0
  have h₁ : Hierarchy fs₁.leaves := (clearTarget_cleared hrm htidy h hp hc).hier
  have hk₁ : Kept fs.leaves fs₁.leaves d := by
    unfold clearTarget at hc
    split_ifs at hc with hex hty
    · exact rmdir_kept h hd hc
    · obtain ⟨-, -, -, hfm, -⟩ := hp.mem h
      exact hdst p fs₁ hp ((h.type _ hfm).resolve_right hty) hex hc
    · obtain ⟨-, rfl⟩ : 0 = (0 : ℤ) ∧ fs = fs₁ := by simpa using hc
      exact hd.kept
  have hd₁ := hk₁.entry
  refine hk₁.trans (hd₁.kept_of fun x hx hpart => relink_keeps h₁.uniq hl hx ?_ ?_)
  · rintro rfl
    exact hsrc p hp hpart
  · rintro e rfl
    rw [show e = d from hpart]
    exact hd₁.not_dot h₁

end

theorem tempname_renameTarget (hn : legalname name = true) {fa : MetaFattr} {n : ℕ} {ddir : ℤ} {dname : Str}
    (hd : lookup l ROOTFID DUMPSTERDIR = some (some fa))
    (ht : renameTarget l dir (tempname name n) = some (.ok (ddir, dname))) :
    ddir = fa.id ∧ dname = name ++ (toString n).toList := by
  unfold renameTarget at ht
  rw [if_pos (by simp [tempname]), splitPath_tempname hn, lookupPath_dumpster, hd] at ht
  dsimp only at ht
  split_ifs at ht
  · simp at ht
  · simp only [Option.some.injEq, Except.ok.injEq, Prod.mk.injEq] at ht
    exact ⟨ht.1.symm, ht.2.symm⟩

/-- A file with a leased chunk is not removed but moved to the dumpster. -/
def busy (env : Env) (l : List Meta) (fa : MetaFattr) : Bool :=
  decide (fa.chunkcount > 0) && (getalloc l fa.id).any fun c => env.leased c.chunkId

/-- The file of the entry `d` is left alone by a removal of `name`: it is not the file of that name, nor the
one in the dumpster under the name that a busy file of that name is moved to. -/
structure Spared (env : Env) (fs : Fs) (dir : ℤ) (name : Str) (d : MetaDentry) : Prop where
  ne : ¬ (d.dir = dir ∧ d.name = name)
  dumpster : ∀ fa, lookup fs.leaves dir name = some (some fa) → busy env fs.leaves fa = true →
    ∀ du, lookup fs.leaves ROOTFID DUMPSTERDIR = some (some du) → du.id ≠ dir →
      ¬ (d.dir = du.id ∧ d.name = name ++ (toString fs.counter).toList)

/-- The removals that `rename` is run with leave the other files alone. -/
def Spares (env : Env) (rm : Fs → ℤ → Str → Option (ℤ × Fs)) : Prop :=
  ∀ ⦃fs dir name st fs' d⦄, Tidy fs → Hierarchy fs.leaves → FileEntry fs.leaves d → Spared env fs dir name d →
    rm fs dir name = some (st, fs') → Kept fs.leaves fs'.leaves d

/-- **A busy file moves to the dumpster** and takes no other file away than the one of its name there. -/
theorem moveToDumpsterWith_kept {rm : Fs → ℤ → Str → Option (ℤ × Fs)} (hrm : Moves rm) (hat : RmAtomic rm)
    (hsp : Spares env rm) (htidy : Tidy fs) (h : Hierarchy fs.leaves) {fa : MetaFattr}
    (hl : lookup fs.leaves dir name = some (some fa)) (ht : fa.type = .file)
    (hbusy : busy env fs.leaves fa = true) (hd : FileEntry fs.leaves d) (hs : Spared env fs dir name d)
    (hm : moveToDumpsterWith rm env fs dir name = some (st, fs')) : Kept fs.leaves fs'.leaves d := by
  obtain ⟨du, fs₁, hg, hcase⟩ := moveToDumpsterWith_spec hm
  obtain ⟨h₁, hdump, hsub, -⟩ := getDumpster_hier htidy h hg
  have hk₁ : Kept fs.leaves fs₁.leaves d := hd.kept_of fun x hx _ => hsub x hx
  rcases hcase with ⟨-, -, rfl⟩ | ⟨hne, hr⟩
  · exact hk₁
  obtain ⟨htidy₁, -⟩ := getDumpster_tidy htidy hg
  have htidy₂ : Tidy { fs₁ with counter := fs₁.counter + 1 } :=
    htidy₁.of_imp le_rfl (fun _ hm => hm) fun g hg => ⟨g, hg, rfl, rfl⟩
  have hsrc : ∀ p : RenamePlan, p.Checked fs₁.leaves dir name (tempname name fs₁.counter) true → p.src ≠ d := by
    rintro p hp rfl
    obtain ⟨-, hsd, hsn, -⟩ := hp.mem h₁
    exact hs.ne ⟨hsd, hsn⟩
  -- a dumpster that has just been made has no files
  have hother : ¬ (d.dir = du.id ∧ d.name = name ++ (toString fs₁.counter).toList) := by
    rcases getDumpster_spec hg with ⟨hdump₀, rfl⟩ | ⟨hdump₀, rfl, hf⟩
    · exact hs.dumpster fa hl hbusy du hdump₀ hne
    · rintro ⟨hdd, -⟩
      have hle := htidy.dir_le d hd.mem
      rw [hdd, lookup_withDumpster htidy hdump₀ hf] at hle
      change fs.fileID + 1 ≤ fs.fileID at hle
      omega
  have hdst : ∀ (p : RenamePlan) (fs₂ : Fs),
      p.Checked fs₁.leaves dir name (tempname name fs₁.counter) true → p.sfattr.type = .file →
      p.dexists = true → rm { fs₁ with counter := fs₁.counter + 1 } p.ddir p.dname = some (0, fs₂) →
      Kept fs₁.leaves fs₂.leaves d := by
    intro p fs₂ hp _ _ hrun
    obtain ⟨hdd, hdn⟩ := tempname_renameTarget (htidy.legal_of_file hl ht) hdump hp.target
    rw [hdd, hdn] at hrun
    have hsp₁ : Spared env { fs₁ with counter := fs₁.counter + 1 } du.id
        (name ++ (toString fs₁.counter).toList) d :=
      ⟨hother, fun _ _ _ du' hdu' hne' => absurd (by simpa using hdump.symm.trans hdu') fun he => hne' (by rw [he])⟩
    have hk₂ := hsp htidy₂ h₁ hk₁.entry hsp₁ hrun
    exact hk₂
  have hk₂ := renameWith_kept hrm hat htidy₂ h₁ hk₁.entry hsrc hdst hr
  exact hk₁.trans hk₂

/-- **`remove` leaves the other files alone**, by induction on the depth of its calls through
`moveToDumpster`. -/
theorem removeF_kept (env : Env) : ∀ fuel, Spares env (removeF fuel env)
  | 0 => by
    intro fs dir name st fs' d _ _ _ _ hr
    simp [removeF] at hr
  | fuel + 1 => by
    intro fs dir name st fs' d htidy h hd hs hr
    rcases removeF_spec hr with ⟨-, rfl⟩ | ⟨fa, hl, ht, -, ⟨hcc, hb, hm⟩ | ⟨-, -, l₁, l', h₁, h₂, rfl⟩⟩
    · exact hd.kept
    · have hbusy : busy env fs.leaves fa = true := by
        rw [busy, Bool.and_eq_true]
        exact ⟨decide_eq_true hcc, List.any_eq_true.mpr hb⟩
      exact moveToDumpsterWith_kept (removeF_moves env fuel) (removeF_atomic env fuel) (removeF_kept env fuel)
        htidy h hl ht hbusy hd hs hm
    · refine removed_kept h hl h₁ h₂ hd ?_
      rintro rfl
      exact hs.ne ⟨rfl, rfl⟩

/-! ## Creating -/

theorem mkdirAt_subset (env : Env) (fs : Fs) (dir : ℤ) (dname : Str) (id : ℤ) :
    fs.leaves ⊆ (Fs.mkdirAt env fs dir dname id).leaves := by
  intro x hx
  simp only [Fs.mkdirAt, Leaves.mem_insert]
  simp [hx]

theorem link_subset {t : FileType} {id n : ℤ} (h : link env l dir name t id n = some l') : l ⊆ l' := by
  intro x hx
  rw [(link_spec h).2]
  split_ifs
  · exact Leaves.mem_insert.mpr (Or.inr (Leaves.mem_insert.mpr (Or.inr hx)))
  · exact Leaves.mem_insert.mpr (Or.inr hx)

theorem mkdir_kept {dname : Str} {id : ℤ} (hd : FileEntry fs.leaves d)
    (hm : mkdir env fs dir dname 0 = some (st, id, fs')) : Kept fs.leaves fs'.leaves d := by
  rcases mkdir_spec hm with ⟨-, rfl⟩ | ⟨-, -, -, ⟨-, -, rfl, rfl⟩ | ⟨-, -, rfl, rfl⟩ | ⟨h0, -⟩⟩
  · exact hd.kept
  · exact hd.kept_of fun x hx _ => mkdirAt_subset env _ dir dname _ hx
  · exact hd.kept_of fun x hx _ => mkdirAt_subset env fs _ dname _ hx
  · exact absurd rfl h0

end Kfs
