import Kfs.Server.Total
import Kfs.Server.Numbers

/-!
# No client request stops the server

* `Stocked`: files count their chunks and have replicas; `Carried`: what the operations of the name space do
  to attributes and chunks; `handle_stocked`;
* `crashes`: the requests that run into an assertion or a panic although the parse handlers accept them;
* `ReadReq`, `handleRead`: the requests that only read;
* `handle_isSome`, **`requests_complete`**.
-/

namespace Kfs

variable {env : Env} {fs fs' fs'' : Fs} {s : Sys} {o : Out} {l l' : List Meta} {dir fid st : ℤ} {name : Str}

/-! ## The operations of the name space -/

/-- What the operations of the name space other than CREATE do to attributes and chunks: files keep their
attributes and their chunks, and only directories are made. -/
structure Carried (fs fs' : Fs) : Prop where
  attr : ∀ g, .fattr g ∈ fs'.leaves → (g.type = .dir ∧ g.numReplicas ≠ 0) ∨ (.fattr g ∈ fs.leaves ∧
    ∀ c : MetaChunkInfo, c.id = g.id → (.chunkinfo c ∈ fs'.leaves ↔ .chunkinfo c ∈ fs.leaves))
  sub : ∀ c, .chunkinfo c ∈ fs'.leaves → .chunkinfo c ∈ fs.leaves
  le : fs.fileID ≤ fs'.fileID

namespace Carried

theorem of_mem (hf : ∀ g, .fattr g ∈ fs'.leaves → .fattr g ∈ fs.leaves)
    (hc : ∀ c, .chunkinfo c ∈ fs'.leaves ↔ .chunkinfo c ∈ fs.leaves) (hle : fs.fileID ≤ fs'.fileID) :
    Carried fs fs' :=
  ⟨fun g hg => Or.inr ⟨hf g hg, fun c _ => hc c⟩, fun c => (hc c).mp, hle⟩

theorem refl (fs : Fs) : Carried fs fs := of_mem (fun _ hg => hg) (fun _ => Iff.rfl) le_rfl

theorem trans (h₁ : Carried fs fs') (h₂ : Carried fs' fs'') : Carried fs fs'' where
  attr g hg := by
    rcases h₂.attr g hg with hnew | ⟨hg, hc₂⟩
    · exact Or.inl hnew
    rcases h₁.attr g hg with hnew | ⟨hg, hc₁⟩
    · exact Or.inl hnew
    · exact Or.inr ⟨hg, fun c hi => (hc₂ c hi).trans (hc₁ c hi)⟩
  sub c hc := h₁.sub c (h₂.sub c hc)
  le := h₁.le.trans h₂.le

end Carried

theorem mkdirAt_carried {dname : Str} {id : ℤ} (hl : fs'.leaves = fs.leaves) (hle : fs.fileID ≤ fs'.fileID) :
    Carried fs (Fs.mkdirAt env fs' dir dname id) where
  attr g hg := by
    rcases mem_fattr_mkdirAt.mp hg with rfl | hg
    · exact Or.inl ⟨rfl, (by decide : (1 : ℤ) ≠ 0)⟩
    · exact Or.inr ⟨hl ▸ hg, fun c _ => by simp [Fs.mkdirAt, Leaves.mem_insert, hl]⟩
  sub c hc := by simpa [Fs.mkdirAt, Leaves.mem_insert, hl] using hc
  le := hle

theorem mkdir_carried {dname : Str} {id : ℤ} (hm : mkdir env fs dir dname 0 = some (st, id, fs')) :
    Carried fs fs' := by
  rcases mkdir_spec hm with ⟨-, rfl⟩ | ⟨-, -, -, ⟨-, -, rfl, rfl⟩ | ⟨-, -, rfl, rfl⟩ | ⟨h0, -⟩⟩
  · exact .refl _
  · exact mkdirAt_carried rfl (by change fs.fileID ≤ fs.fileID + 1; omega)
  · exact mkdirAt_carried rfl le_rfl
  · exact absurd rfl h0

theorem rmdir_carried {dname : Str} (hr : rmdir fs dir dname = some (st, fs')) : Carried fs fs' := by
  rcases rmdir_spec hr with ⟨-, rfl⟩ | ⟨-, fa, l', hd, rfl⟩
  · exact .refl _
  obtain ⟨l₁, l₂, l₃, h₁, h₂, h₃, h₄⟩ := hd.done
  obtain ⟨hF₁, hC₁⟩ := delOk_dentry h₁
  obtain ⟨hF₂, hC₂⟩ := delOk_dentry h₂
  obtain ⟨hF₃, hC₃⟩ := delOk_dentry h₃
  obtain ⟨g, -, hF₄, hC₄⟩ := delOk_fattr h₄
  refine .of_mem (fun f hf => ?_) (fun c => ?_) le_rfl
  · rw [← mem_fattrs] at hf ⊢
    exact (((hF₁.trans hF₂).trans hF₃).trans hF₄).mem_iff.mpr (List.mem_cons_of_mem _ hf)
  · rw [← mem_chunks, ← mem_chunks]
    exact (((hC₁.trans hC₂).trans hC₃).trans hC₄).mem_iff.symm

theorem relink_carried {p : RenamePlan} (hr : relink env fs.leaves p = some l') :
    Carried fs { fs with leaves := l' } := by
  obtain ⟨-, hr⟩ := relink_spec hr
  split_ifs at hr
  · obtain ⟨-, l₁, l₂, h₁, h₂, rfl⟩ := hr
    obtain ⟨hF₁, hC₁⟩ := delOk_dentry h₁
    obtain ⟨hF₂, hC₂⟩ := delOk_dentry h₂
    refine .of_mem (fun f hf => ?_) (fun c => ?_) le_rfl
    · rw [← mem_fattrs]
      refine (hF₁.trans hF₂).mem_iff.mpr (mem_fattrs.mpr ?_)
      simpa [Leaves.mem_insert] using hf
    · rw [← mem_chunks (l := fs.leaves), (hC₁.trans hC₂).mem_iff, mem_chunks]
      simp [Leaves.mem_insert]
  · obtain ⟨l₂, h₂, rfl⟩ := hr
    obtain ⟨hF₂, hC₂⟩ := delOk_dentry h₂
    refine .of_mem (fun f hf => ?_) (fun c => ?_) le_rfl
    · rw [← mem_fattrs]
      refine hF₂.mem_iff.mpr (mem_fattrs.mpr ?_)
      simpa [Leaves.mem_insert] using hf
    · rw [← mem_chunks (l := fs.leaves), hC₂.mem_iff, mem_chunks]
      simp [Leaves.mem_insert]

/-- A removal of a file takes only its own chunks with it. -/
theorem removed_carried (h : Hierarchy fs.leaves) {fa : MetaFattr} {l₁ : List Meta}
    (h₁ : dropChunks fs.leaves fa (getalloc fs.leaves fa.id) = some l₁)
    (h₂ : unlink l₁ dir name fa false = some l') : Carried fs { fs with leaves := l' } := by
  obtain ⟨hs, hm⟩ := dropChunks_mem h₁
  obtain ⟨l₂, h₂, h₃⟩ := unlink_iff.mp h₂
  have u₁ := h.uniq.sublist hs
  have u₂ := u₁.delOk h₂
  have hmem : ∀ x, x ∈ l' ↔ x ∈ l₁ ∧ x.slot ≠ .dent dir name ∧ x.slot ≠ .attr fa.id := by
    intro x
    rw [u₂.mem_delOk (plain_fattr _) h₃, u₁.mem_delOk (plain_dentry _) h₂, and_assoc]
    simp only [Meta.slot]
  refine ⟨fun g hg => Or.inr ?_, fun c hc => hs.subset ((hmem _).mp hc).1, le_rfl⟩
  obtain ⟨hg₁, -, hne⟩ := (hmem _).mp hg
  refine ⟨(hm _ (by simp)).mp hg₁, fun c hi => ?_⟩
  have hne : g.id ≠ fa.id := by simpa [Meta.slot] using hne
  rw [hmem, dropChunks_other h₁ (hi.trans_ne hne)]
  simp [Meta.slot]

/-- The removals that `rename` is run with. -/
def Carries (rm : Fs → ℤ → Str → Option (ℤ × Fs)) : Prop :=
  ∀ ⦃fs dir name st fs'⦄, Tidy fs → Hierarchy fs.leaves → rm fs dir name = some (st, fs') → Carried fs fs'

section

variable {rm : Fs → ℤ → Str → Option (ℤ × Fs)} {parent : ℤ} {oldname newname : Str} {overwrite : Bool}

theorem renameWith_carried (hrm : Carries rm) (htidy : Tidy fs) (h : Hierarchy fs.leaves)
    (hr : renameWith rm env fs parent oldname newname overwrite = some (st, fs')) : Carried fs fs' := by
  have hclear : ∀ {p : RenamePlan} {st₁ fs₁}, clearTarget rm fs p = some (st₁, fs₁) → Carried fs fs₁ := by
    intro p st₁ fs₁ hc
    unfold clearTarget at hc
    split_ifs at hc
    · exact rmdir_carried hc
    · exact hrm htidy h hc
    · obtain ⟨-, rfl⟩ : 0 = st₁ ∧ fs = fs₁ := by simpa using hc
      exact .refl _
  rcases renameWith_spec hr with ⟨-, rfl⟩ | ⟨p, -, ⟨-, hc⟩ | ⟨-, fs₁, l', hc, hl, rfl⟩⟩
  · exact .refl _
  · exact hclear hc
  · exact (hclear hc).trans (relink_carried hl)

theorem moveToDumpsterWith_carried (hrm : Carries rm) (htidy : Tidy fs) (h : Hierarchy fs.leaves)
    (hm : moveToDumpsterWith rm env fs dir name = some (st, fs')) : Carried fs fs' := by
  obtain ⟨du, fs₁, hg, hcase⟩ := moveToDumpsterWith_spec hm
  have h₁ : Carried fs fs₁ := by
    rcases getDumpster_spec hg with ⟨-, rfl⟩ | ⟨-, rfl, -⟩
    · exact .refl _
    · exact mkdirAt_carried rfl (by change fs.fileID ≤ fs.fileID + 1; omega)
  rcases hcase with ⟨-, -, rfl⟩ | ⟨-, hr⟩
  · exact h₁
  have htidy₂ : Tidy { fs₁ with counter := fs₁.counter + 1 } :=
    (getDumpster_tidy htidy hg).1.of_imp le_rfl (fun _ hm => hm) fun g hg => ⟨g, hg, rfl, rfl⟩
  have h₂ : Carried fs₁ { fs₁ with counter := fs₁.counter + 1 } :=
    .of_mem (fun _ hg => hg) (fun _ => Iff.rfl) le_rfl
  exact (h₁.trans h₂).trans (renameWith_carried hrm htidy₂ (getDumpster_hier htidy h hg).1 hr)

end

theorem removeF_carried (env : Env) : ∀ fuel, Carries (removeF fuel env)
  | 0 => by
    intro fs dir name st fs' _ _ hr
    simp [removeF] at hr
  | fuel + 1 => by
    intro fs dir name st fs' htidy h hr
    rcases removeF_spec hr with ⟨-, rfl⟩ | ⟨fa, -, -, -, ⟨-, -, hm⟩ | ⟨-, -, l₁, l', h₁, h₂, rfl⟩⟩
    · exact .refl _
    · exact moveToDumpsterWith_carried (removeF_carried env fuel) htidy h hm
    · exact removed_carried h h₁ h₂

/-! ## The invariant -/

/-- Files count their chunks, everything has replicas, and chunks belong to ids that have been given out. -/
structure Stocked (s : Sys) : Prop where
  count : Counts s.fs.leaves
  replicas : ∀ f, .fattr f ∈ s.fs.leaves → f.numReplicas ≠ 0
  old : ∀ c, .chunkinfo c ∈ s.fs.leaves → c.id ≤ s.fs.fileID
  wait : ∀ a ∈ s.pending, a.fid ≤ s.fs.fileID

theorem Stocked.carried (hs : Stocked s) (h : Hierarchy s.fs.leaves) (h' : Hierarchy fs'.leaves)
    (hc : Carried s.fs fs') : Stocked { s with fs := fs' } where
  count f hf ht := by
    rcases hc.attr f hf with ⟨hd, -⟩ | ⟨hf, hch⟩
    · rw [ht] at hd
      exact absurd hd (by decide)
    · rw [h.uniq.getalloc_length h'.uniq hch]
      exact hs.count f hf ht
  replicas f hf := by
    rcases hc.attr f hf with ⟨-, hn⟩ | ⟨hf, -⟩
    · exact hn
    · exact hs.replicas f hf
  old c hcm := (hs.old c (hc.sub c hcm)).trans hc.le
  wait a ha := (hs.wait a ha).trans hc.le

theorem newTree_stocked (h : newTree env = some fs) : Stocked ⟨fs, []⟩ := by
  rw [newTree_eq] at h
  obtain rfl := Option.some.inj h
  refine ⟨fun f hf ht => ?_, fun f hf => ?_, by simp [rootLeaves], by simp⟩
  · obtain rfl : f = MetaFattr.new env .dir ROOTFID 1 := by simpa [rootLeaves] using hf
    exact absurd ht (show ¬ FileType.dir = .file by decide)
  · obtain rfl : f = MetaFattr.new env .dir ROOTFID 1 := by simpa [rootLeaves] using hf
    exact (by decide : (1 : ℤ) ≠ 0)

/-- A new file has no chunks. -/
theorem create_stocked (htidy : Tidy s.fs) (h : Hierarchy s.fs.leaves) (hs : Stocked s) {id n : ℤ}
    {exclusive : Bool} (hc : create env s.fs dir name 0 n exclusive = some (st, id, fs'))
    (h' : Hierarchy fs'.leaves) : Stocked { s with fs := fs' } := by
  rcases create_spec hc with ⟨-, rfl⟩ | ⟨-, hn, fa, -, -, st₁, fs₁, hr, hcase⟩
  · exact hs
  have h₁ : Hierarchy fs₁.leaves ∧ Carried s.fs fs₁ := by
    unfold removeOld at hr
    split_ifs at hr
    · exact ⟨remove_hier htidy h hr, removeF_carried env 2 htidy h hr⟩
    · obtain ⟨-, rfl⟩ : 0 = st₁ ∧ s.fs = fs₁ := by simpa using hr
      exact ⟨h, .refl _⟩
  have hs₁ := hs.carried h h₁.1 h₁.2
  rcases hcase with ⟨-, -, rfl⟩ | ⟨-, -, rfl, l', hlk, rfl⟩
  · exact hs₁
  simp only [if_true] at h' hlk ⊢
  obtain ⟨-, hl⟩ := link_spec hlk
  have hchunk : ∀ c, .chunkinfo c ∈ l' ↔ .chunkinfo c ∈ fs₁.leaves := by
    intro c
    rw [hl]
    split_ifs <;> simp [Leaves.mem_insert]
  have hattr : ∀ f, .fattr f ∈ l' → .fattr f ∈ fs₁.leaves ∨ f = MetaFattr.new env .file (fs₁.fileID + 1) n := by
    intro f hf
    rw [hl] at hf
    split_ifs at hf
    · rcases Leaves.mem_insert.mp hf with hf | hf
      · exact Or.inr (Meta.fattr.inj hf)
      · exact Or.inl (by simpa [Leaves.mem_insert] using hf)
    · exact Or.inl (by simpa [Leaves.mem_insert] using hf)
  have hlt : fs₁.fileID < fs₁.fileID + 1 := by omega
  refine ⟨fun f hf ht => ?_, fun f hf => ?_, fun c hcm => (hs₁.old c ((hchunk c).mp hcm)).trans hlt.le,
    fun a ha => (hs₁.wait a ha).trans hlt.le⟩
  · rw [h₁.1.uniq.getalloc_length h'.uniq fun c _ => hchunk c]
    rcases hattr f hf with hf | rfl
    · exact hs₁.count f hf ht
    · have hnil : getalloc fs₁.leaves (MetaFattr.new env .file (fs₁.fileID + 1) n).id = [] := by
        refine List.eq_nil_iff_forall_not_mem.mpr fun c hcm => ?_
        obtain ⟨hcm, hci⟩ := mem_getalloc.mp hcm
        have hle := hs₁.old c hcm
        rw [hci] at hle
        exact absurd hle (not_le.mpr hlt)
      change (0 : ℤ) = _
      rw [hnil]
      rfl
  · rcases hattr f hf with hf | rfl
    · exact hs₁.replicas f hf
    · change n ≠ 0
      omega

/-! ## The operations on files -/

/-- The attributes of one file are overwritten. -/
theorem mem_update_fattr {g : Meta → Meta} {u : MetaFattr → MetaFattr} {f₀ : MetaFattr} (h : Uniq l)
    (hf : .fattr f₀ ∈ l) (hg : ∀ f, g (.fattr f) = .fattr (u f)) :
    (∀ f, .fattr f ∈ Leaves.update l ⟨.fattr, f₀.id, 0⟩ g → f = u f₀ ∨ (.fattr f ∈ l ∧ f.id ≠ f₀.id)) ∧
      ∀ c, .chunkinfo c ∈ Leaves.update l ⟨.fattr, f₀.id, 0⟩ g ↔ .chunkinfo c ∈ l := by
  obtain ⟨f, f', R, hfi, hfg, hF, hF', hC⟩ := update_fattr (l := l) (g := g) ⟨f₀, mem_fattrs.mpr hf, rfl⟩
    fun f => ⟨u f, hg f⟩
  have hfm : f ∈ fattrs l := hF.mem_iff.mpr List.mem_cons_self
  obtain rfl := h.eq_of_id (mem_fattrs.mp hfm) hf hfi
  obtain rfl : u f = f' := by simpa [hg] using hfg
  have hnd := (List.nodup_cons.mp (hF.nodup_iff.mp h.fattrs_nodup)).1
  refine ⟨fun e he => ?_, fun c => ?_⟩
  · rcases List.mem_cons.mp (hF'.mem_iff.mp (mem_fattrs.mpr he)) with rfl | he
    · exact Or.inl rfl
    · have hel := mem_fattrs.mp (hF.mem_iff.mpr (List.mem_cons_of_mem _ he))
      exact Or.inr ⟨hel, fun hi => hnd (h.eq_of_id hel hf hi ▸ he)⟩
  · rw [← mem_chunks, ← mem_chunks]
    exact hC.mem_iff.symm

/-- The attributes of one file are overwritten, after its chunks may have changed. -/
theorem Stocked.setAttr {l₁ : List Meta} {g : Meta → Meta} {u : MetaFattr → MetaFattr} {f₀ : MetaFattr}
    (hs : Stocked s) (h : Hierarchy s.fs.leaves) (h₁ : Hierarchy l₁)
    (h' : Hierarchy (Leaves.update l₁ ⟨.fattr, f₀.id, 0⟩ g)) (hf₀ : .fattr f₀ ∈ l₁)
    (hg : ∀ f, g (.fattr f) = .fattr (u f)) (hr : (u f₀).numReplicas ≠ 0) (hid : (u f₀).id = f₀.id)
    (hcount : (u f₀).type = .file → (u f₀).chunkcount = (getalloc l₁ f₀.id).length)
    (hf : ∀ f, .fattr f ∈ l₁ → .fattr f ∈ s.fs.leaves)
    (hc : ∀ c : MetaChunkInfo, c.id ≠ f₀.id → (.chunkinfo c ∈ l₁ ↔ .chunkinfo c ∈ s.fs.leaves))
    (hold : ∀ c : MetaChunkInfo, .chunkinfo c ∈ l₁ → c.id ≤ s.fs.fileID) :
    Stocked { s with fs := { s.fs with leaves := Leaves.update l₁ ⟨.fattr, f₀.id, 0⟩ g } } := by
  obtain ⟨hattr, hch⟩ := mem_update_fattr h₁.uniq hf₀ hg
  refine ⟨fun f hfm ht => ?_, fun f hfm => ?_, fun c hcm => hold c ((hch c).mp hcm), hs.wait⟩
  · rcases hattr f hfm with rfl | ⟨hfm, hne⟩
    · rw [hid, h₁.uniq.getalloc_length h'.uniq fun c _ => hch c]
      exact hcount ht
    · rw [h.uniq.getalloc_length h'.uniq fun c hi => (hch c).trans (hc c (hi.trans_ne hne))]
      exact hs.count f (hf f hfm) ht
  · rcases hattr f hfm with rfl | ⟨hfm, -⟩
    · exact hr
    · exact hs.replicas f (hf f hfm)

theorem changeFileReplication_stocked (h : Hierarchy s.fs.leaves) (hs : Stocked s) {n : ℤ} (hn : n ≠ 0)
    (hc : changeFileReplication s.fs fid n = (st, fs')) : Stocked { s with fs := fs' } := by
  have h' := changeFileReplication_hier h hc
  unfold changeFileReplication at hc
  rcases hf : getFattr s.fs.leaves fid with - | fa
  · obtain ⟨-, rfl⟩ : -ENOENT = st ∧ s.fs = fs' := by simpa [hf] using hc
    exact hs
  obtain ⟨hfm, rfl⟩ := getFattr_some hf
  simp only [hf, Prod.mk.injEq] at hc
  obtain ⟨-, rfl⟩ := hc
  exact hs.setAttr h h h' hfm (u := fun _ => { fa with numReplicas := n }) (fun _ => rfl) hn rfl
    (fun ht => hs.count fa hfm ht) (fun _ hf => hf) (fun _ _ => Iff.rfl) hs.old

theorem assignChunkId_stocked (htidy : Tidy s.fs) (h : Hierarchy s.fs.leaves) (hs : Stocked s)
    {offset chunkId v : ℤ} (ho : CHUNKSIZE ∣ offset)
    (ha : assignChunkId env s.fs fid offset chunkId v = (st, fs')) :
    Stocked { s with fs := fs' } := by
  have h' := assignChunkId_hier h ho ha
  rcases assignChunkId_spec ha with
    ⟨-, -, rfl⟩ | ⟨fa, hfa, ⟨c, -, -, -, rfl⟩ | ⟨c, hc, -, -, rfl⟩ | ⟨hc, -, rfl⟩⟩
  · exact hs
  · exact hs
  · -- one chunk is replaced by another one of the same file
    obtain ⟨hcm, hid, hoff⟩ := getChunk_spec h.uniq.plain (chunkStartOffset_ne offset) hc
    have hhit : (Meta.chunkinfo c).key.eqv ⟨.chunkinfo, fid, chunkStartOffset offset⟩ = true :=
      (eqv_chunk _ _ _).mpr ⟨c, rfl, hid, Or.inl hoff⟩
    obtain ⟨z, r, hz, hp, hp'⟩ := update_perm (g := fun _ => .chunkinfo { c with chunkVersion := v })
      ⟨_, hcm, hhit⟩
    obtain ⟨e, rfl, hei, -⟩ := (eqv_chunk z _ _).mp hz
    have hF : List.Perm (fattrs (setChunk s.fs.leaves fid (chunkStartOffset offset) { c with chunkVersion := v }))
        (fattrs s.fs.leaves) := (hp'.filterMap Meta.fattr?).trans (hp.filterMap Meta.fattr?).symm
    have hC := hp.filterMap Meta.chunkinfo?
    have hC' := hp'.filterMap Meta.chunkinfo?
    refine ⟨fun f hf ht => ?_, fun f hf => ?_, fun a ham => ?_, hs.wait⟩
    · rw [hs.count f (mem_fattrs.mp (hF.mem_iff.mp (mem_fattrs.mpr hf))) ht, getalloc_eq, getalloc_eq,
        ← List.countP_eq_length_filter, ← List.countP_eq_length_filter]
      change ((chunks s.fs.leaves).countP _ : ℤ) = (chunks (Leaves.update _ _ _)).countP _
      unfold chunks
      rw [hC.countP_eq, hC'.countP_eq, List.filterMap_cons, List.filterMap_cons]
      simp only [Meta.chunkinfo?, List.countP_cons, hei, hid]
    · exact hs.replicas f (mem_fattrs.mp (hF.mem_iff.mp (mem_fattrs.mpr hf)))
    · rcases List.mem_cons.mp (hp'.mem_iff.mp ham) with he | ham
      · obtain rfl := Meta.chunkinfo.inj he
        exact hs.old c hcm
      · exact hs.old a (hp.mem_iff.mpr (List.mem_cons_of_mem _ ham))
  · -- a chunk is linked at a free place, and counted
    obtain ⟨hfm, rfl⟩ := getFattr_some hfa
    rw [chunkStartOffset_of_aligned ho] at hc
    have hfree := getChunk_free hc
    have hnew : .chunkinfo ⟨fa.id, offset, chunkId, v⟩ ∉ s.fs.leaves := fun hm =>
      hfree _ (mem_chunks.mpr hm) rfl rfl
    have hi := @Hierarchy.insertChunk _ h ⟨fa.id, offset, chunkId, v⟩ (ne_matchAny ho) hfree
    refine hs.setAttr h hi h' (Leaves.mem_insert.mpr (Or.inr hfm)) (u := MetaFattr.addChunk env) (fun _ => rfl)
      (hs.replicas fa hfm) rfl (fun ht => ?_) (fun f hf => by simpa [Leaves.mem_insert] using hf)
      (fun c hne => ?_) fun c hcm => ?_
    · have hperm : List.Perm (getalloc (Leaves.insert s.fs.leaves (.chunkinfo ⟨fa.id, offset, chunkId, v⟩)) fa.id)
          (⟨fa.id, offset, chunkId, v⟩ :: getalloc s.fs.leaves fa.id) := by
        refine (List.perm_ext_iff_of_nodup (hi.uniq.getalloc_nodup _)
          (List.nodup_cons.mpr ⟨fun hm => hnew (mem_getalloc.mp hm).1, h.uniq.getalloc_nodup _⟩)).mpr fun c => ?_
        rw [mem_getalloc, List.mem_cons, mem_getalloc, Leaves.mem_insert, Meta.chunkinfo.injEq]
        constructor
        · rintro ⟨rfl | hm, hid⟩
          · exact Or.inl rfl
          · exact Or.inr ⟨hm, hid⟩
        · rintro (rfl | ⟨hm, hid⟩)
          · exact ⟨Or.inl rfl, rfl⟩
          · exact ⟨Or.inr hm, hid⟩
      rw [hperm.length_eq, List.length_cons]
      change fa.chunkcount + 1 = _
      rw [hs.count fa hfm ht]
      rfl
    · rw [Leaves.mem_insert, Meta.chunkinfo.injEq, or_iff_right]
      rintro rfl
      exact hne rfl
    · rcases Leaves.mem_insert.mp hcm with he | hcm
      · obtain rfl := Meta.chunkinfo.inj he
        exact htidy.attr_le fa hfm
      · exact hs.old c hcm

/-- A removal of chunks that are there takes just them. -/
theorem Uniq.mem_deleteChunks : ∀ {cs : List MetaChunkInfo} {l : List Meta}, Uniq l → cs.Nodup →
    (∀ c ∈ cs, .chunkinfo c ∈ l) → deleteChunks l cs = some l' →
    ∀ e, .chunkinfo e ∈ l' ↔ .chunkinfo e ∈ l ∧ e ∉ cs
  | [], l, _, _, _, hd, e => by
    obtain rfl : l = l' := by simpa [deleteChunks] using hd
    simp
  | c :: cs, l, h, hn, hm, hd, e => by
    simp only [deleteChunks, List.foldlM_cons, Option.bind_eq_bind, Option.bind_eq_some_iff] at hd
    obtain ⟨l₁, h₁, h₂⟩ := hd
    obtain ⟨hc, hn⟩ := List.nodup_cons.mp hn
    have hcm := hm c List.mem_cons_self
    have hmem : ∀ e, .chunkinfo e ∈ l₁ ↔ .chunkinfo e ∈ l ∧ e ≠ c := by
      intro e
      rw [h.mem_delOk (h.plain _ hcm) h₁]
      refine and_congr_right fun he => not_congr ⟨fun hs => Meta.chunkinfo.inj (h.eq_of_slot he hcm hs), ?_⟩
      rintro rfl
      rfl
    have hm₁ : ∀ c' ∈ cs, .chunkinfo c' ∈ l₁ := by
      refine fun c' hc' => (hmem c').mpr ⟨hm c' (List.mem_cons_of_mem _ hc'), ?_⟩
      rintro rfl
      exact hc hc'
    rw [(h.delOk h₁).mem_deleteChunks hn hm₁ h₂, hmem, and_assoc, List.mem_cons, not_or]

theorem truncate_stocked (h : Hierarchy s.fs.leaves) (hs : Stocked s) {offset a : ℤ}
    (ht : truncate env s.fs fid offset = some (st, a, fs')) : Stocked { s with fs := fs' } := by
  have h' := truncate_hier h ht
  rcases truncate_spec ht with ⟨-, rfl⟩ | ⟨fa, hfa, hty, hcount, ⟨-, -, -, rfl⟩ | ⟨-, -, l₁, hd, rfl⟩⟩
  · exact hs
  · obtain ⟨hfm, rfl⟩ := getFattr_some hfa
    exact hs.setAttr h h h' hfm (u := fun _ => { fa with filesize := -1 }) (fun _ => rfl) (hs.replicas fa hfm)
      rfl (fun ht => hs.count fa hfm ht) (fun _ hf => hf) (fun _ _ => Iff.rfl) hs.old
  obtain ⟨hfm, rfl⟩ := getFattr_some hfa
  have hsub := deadChunks_sublist offset (getalloc s.fs.leaves fa.id)
  have hnd : (deadChunks offset (getalloc s.fs.leaves fa.id)).Nodup := (h.uniq.getalloc_nodup _).sublist hsub
  have hdead : ∀ c ∈ deadChunks offset (getalloc s.fs.leaves fa.id), .chunkinfo c ∈ s.fs.leaves ∧ c.id = fa.id :=
    fun c hc => mem_getalloc.mp (hsub.subset hc)
  have hmem := h.uniq.mem_deleteChunks hnd (fun c hc => (hdead c hc).1) hd
  have h₁ := h.deleteChunks hd
  have hother := (deleteChunks_mem hd).2
  refine hs.setAttr h h₁ h' ((hother _ (by simp)).mpr hfm)
    (u := fun _ => { fa with
      filesize := -1, mtime := env.now,
      chunkcount := fa.chunkcount - (deadChunks offset (getalloc s.fs.leaves fa.id)).length }) (fun _ => rfl)
    (hs.replicas fa hfm) rfl (fun _ => ?_) (fun f hf => (hother _ (by simp)).mp hf) (fun c hne => ?_)
    fun c hc => hs.old c ((hmem c).mp hc).1
  · have hperm : List.Perm (getalloc s.fs.leaves fa.id)
        (deadChunks offset (getalloc s.fs.leaves fa.id) ++ getalloc l₁ fa.id) := by
      refine (List.perm_ext_iff_of_nodup (h.uniq.getalloc_nodup _) ?_).mpr fun c => ?_
      · refine List.nodup_append.mpr ⟨hnd, h₁.uniq.getalloc_nodup _, fun c hc e he hce => ?_⟩
        exact ((hmem e).mp (mem_getalloc.mp he).1).2 (hce ▸ hc)
      · rw [List.mem_append, mem_getalloc, mem_getalloc, hmem]
        constructor
        · rintro ⟨hc, hi⟩
          by_cases hcd : c ∈ deadChunks offset (getalloc s.fs.leaves fa.id)
          · exact Or.inl hcd
          · exact Or.inr ⟨⟨hc, hcd⟩, hi⟩
        · rintro (hc | ⟨⟨hc, -⟩, hi⟩)
          · exact hdead c hc
          · exact ⟨hc, hi⟩
    have hlen := hperm.length_eq
    rw [List.length_append] at hlen
    dsimp only
    omega
  · rw [hmem, and_iff_left]
    exact fun hc => hne (hdead c hc).2

theorem startAllocate_stocked (htidy : Tidy s.fs) (hs : Stocked s) {offset : ℤ} {reply : LeaseReply}
    {placed : Bool} (ha : startAllocate s fid offset reply placed = some o) : Stocked o.sys := by
  have hwait : ∀ fa, getFattr s.fs.leaves fid = some fa → ∀ a : Alloc, a.fid = fid →
      ∀ b ∈ s.pending ++ [a], b.fid ≤ s.fs.fileID := by
    intro fa hfa a hai b hb
    rcases List.mem_append.mp hb with hb | hb
    · exact hs.wait b hb
    · obtain rfl := List.mem_singleton.mp hb
      rw [hai]
      exact htidy.getFattr_le hfa
  rcases startAllocate_spec ha with
    ⟨-, rfl⟩ | ⟨fa, hfa, -, -, ⟨c, -, ⟨st, -, rfl⟩ | ⟨-, rfl⟩ | ⟨-, rfl⟩⟩ | ⟨-, ⟨-, rfl⟩ | ⟨-, rfl⟩⟩⟩
  · exact hs
  · exact hs
  · exact hs
  · exact ⟨hs.count, hs.replicas, hs.old, hwait fa hfa _ rfl⟩
  · exact ⟨hs.count, hs.replicas, hs.old, hwait fa hfa _ rfl⟩
  · exact ⟨hs.count, hs.replicas, hs.old, hs.wait⟩

theorem changeIncarnationNumber_stocked (hs : Stocked s) : Stocked (changeIncarnationNumber s).sys := by
  unfold changeIncarnationNumber done
  dsimp only
  split_ifs
  · exact ⟨hs.count, hs.replicas, hs.old, hs.wait⟩
  · exact hs

theorem Stocked.erase (hs : Stocked s) (i : ℕ) : Stocked { s with pending := s.pending.eraseIdx i } :=
  ⟨hs.count, hs.replicas, hs.old, fun a ha => hs.wait a (List.mem_of_mem_eraseIdx ha)⟩

theorem cleanupDumpster_carried (htidy : Tidy fs) (h : Hierarchy fs.leaves)
    (hc : cleanupDumpster env fs = some fs') : Carried fs fs' := by
  have := cleanupDumpster_induct (P := fun fs₁ => (Tidy fs₁ ∧ Hierarchy fs₁.leaves) ∧ Carried fs fs₁)
    (fun _ _ _ _ _ hi hr => ⟨⟨(removeF_tidy env 2 hi.1.1 hr).1, remove_hier hi.1.1 hi.1.2 hr⟩,
      hi.2.trans (removeF_carried env 2 hi.1.1 hi.1.2 hr)⟩) ⟨⟨htidy, h⟩, .refl _⟩ hc
  exact this.2

theorem emptyDumpsterDir_carried (htidy : Tidy fs) (h : Hierarchy fs.leaves)
    (he : emptyDumpsterDir env fs = some fs') : Carried fs fs' := by
  obtain ⟨_, _, fs₁, hm, htidy₁, h₁, hc⟩ := emptyDumpsterDir_cases htidy h he
  exact (mkdir_carried hm).trans (cleanupDumpster_carried htidy₁ h₁ hc)

/-- **One step keeps the counts of the files and their replicas.** -/
theorem handle_stocked {e : Event} (h : Intact s) (hs : Stocked s) (hparsed : e.req.Parsed) (hreg : Regular s e)
    (ho : handle e.worm e.env s e.req = some o) : Stocked o.sys := by
  have h' := (handle_intact h hreg ho).hier
  obtain ⟨worm, env, req⟩ := e
  have hcases := handle_cases ho
  cases hcases with
  | refused _ => exact hs
  | create _ hc => exact create_stocked h.tidy h.hier hs hc h'
  | mkdir _ hm => exact hs.carried h.hier h' (mkdir_carried hm)
  | remove hr => exact hs.carried h.hier h' (removeF_carried env 2 h.tidy h.hier hr)
  | rmdir hr => exact hs.carried h.hier h' (rmdir_carried hr)
  | rename hr => exact hs.carried h.hier h' (renameWith_carried (removeF_carried env 2) h.tidy h.hier hr)
  | allocate ha => exact startAllocate_stocked h.tidy hs ha
  | assigned hp ha =>
    exact (assignChunkId_stocked h.tidy h.hier hs (h.aligned _ (List.mem_of_getElem? hp)) ha).erase _
  | layoutFailed hp => exact changeIncarnationNumber_stocked (hs.erase _)
  | truncate ht _ => exact truncate_stocked h.hier hs ht
  | truncateAlloc ht _ ha =>
    have := startAllocate_stocked (truncate_tidy h.tidy ht) (truncate_stocked h.hier hs ht) ha
    exact ⟨this.count, this.replicas, this.old, this.wait⟩
  | changeFileReplication hc => exact changeFileReplication_stocked h.hier hs (by have := hparsed.1; omega) hc
  | changeIncarnationNumber => exact changeIncarnationNumber_stocked hs
  | cleanupDumpster hc => exact hs.carried h.hier h' (cleanupDumpster_carried h.tidy h.hier hc)
  | emptyDumpsterDir he => exact hs.carried h.hier h' (emptyDumpsterDir_carried h.tidy h.hier he)

/-! ## Requests that complete -/

/-- The requests that only read the tree. -/
inductive ReadReq
  | lookup (dir : ℤ) (name : Str)
  | lookupPath (root : ℤ) (path : Str)
  | readdir (dir : ℤ)
  | readdirPlus (dir : ℤ)
  | getalloc (fid offset : ℤ)
  | getlayout (fid : ℤ)

/-- The status of a lookup. -/
def found {α : Type} (r : Option α) : ℤ := if r.isSome then 0 else -ENOENT

/-- The operations on the tree that the handlers of these requests make, with the status. READDIRPLUS looks
up each of the entries. -/
def handleRead (l : List Meta) : ReadReq → Option ℤ
  | .lookup dir name => (lookup l dir name).map found
  | .lookupPath root path => (lookupPath l root path).map found
  | .readdir dir =>
    if (getFattr l dir).isNone then some (-ENOENT)
    else if ¬ is_dir l dir then some (-ENOTDIR)
    else (readdir l dir).map found
  | .readdirPlus dir =>
    if (getFattr l dir).isNone then some (-ENOENT)
    else if ¬ is_dir l dir then some (-ENOTDIR)
    else (readdir l dir).bind fun v =>
      ((v.getD []).mapM fun e => lookup l e.dir e.name).map fun _ => found v
  | .getalloc fid offset =>
    if (getFattr l fid).isNone then some (-ENOENT) else some (found (getChunk l fid (chunkStartOffset offset)))
  | .getlayout fid => if (getFattr l fid).isNone then some (-ENOENT) else some 0

theorem mapM_isSome {α β : Type} {f : α → Option β} (hf : ∀ a, ∃ b, f a = some b) :
    ∀ as : List α, ∃ bs, as.mapM f = some bs
  | [] => ⟨[], rfl⟩
  | a :: as => by
    obtain ⟨b, hb⟩ := hf a
    obtain ⟨bs, hbs⟩ := mapM_isSome hf as
    exact ⟨b :: bs, by simp [List.mapM_cons, hb, hbs]⟩

/-- **The requests that only read complete** in every tree of directories. -/
theorem handleRead_isSome (h : Hierarchy l) (r : ReadReq) : ∃ status, handleRead l r = some status := by
  cases r with
  | lookup dir name =>
    obtain ⟨o, ho⟩ := h.lookup_isSome dir name
    exact ⟨_, by rw [handleRead, ho, Option.map_some]⟩
  | lookupPath root path =>
    obtain ⟨o, ho⟩ := h.lookupPath_isSome root path
    exact ⟨_, by rw [handleRead, ho, Option.map_some]⟩
  | readdir dir =>
    obtain ⟨v, hv⟩ := h.readdir_isSome dir
    rw [handleRead, hv, Option.map_some]
    split_ifs <;> exact ⟨_, rfl⟩
  | readdirPlus dir =>
    obtain ⟨v, hv⟩ := h.readdir_isSome dir
    obtain ⟨fs, hfs⟩ := mapM_isSome (fun e : MetaDentry => h.lookup_isSome e.dir e.name) (v.getD [])
    rw [handleRead, hv, Option.bind_some, hfs, Option.map_some]
    split_ifs <;> exact ⟨_, rfl⟩
  | getalloc fid offset =>
    rw [handleRead]
    split_ifs <;> exact ⟨_, rfl⟩
  | getlayout fid =>
    rw [handleRead]
    split_ifs <;> exact ⟨_, rfl⟩

/-- The next name of `name` in the dumpster is that of the entry `d`, which is removed when a busy file of that
name in `dir` is moved there. -/
def overwrites (fs : Fs) (dir : ℤ) (name : Str) (d : MetaDentry) : Bool :=
  match lookup fs.leaves ROOTFID DUMPSTERDIR with
  | some (some du) => decide (du.id ≠ dir) &&
      decide (d.dir = du.id ∧ d.name = name ++ (toString fs.counter).toList)
  | _ => false

/-- The requests of clients that run into an assertion, a panic or a dangling pointer: a CREATE over a busy file
that cannot be moved to the dumpster, a RENAME over a busy file that takes the place of the source in the
dumpster, and an ALLOCATE at an offset inside a chunk. -/
def crashes (worm : Bool) (env : Env) (s : Sys) : Req → Bool
  | .create dir name _ exclusive => !exclusive &&
    match lookup s.fs.leaves dir name with
    | some (some fa) => decide (fa.type = .file) && busy env s.fs.leaves fa && dumpsterRefuses env s.fs dir name
    | _ => false
  | .rename dir oldname newname overwrite =>
    match wormForbids worm s.fs.leaves oldname newname,
        renameCheck s.fs.leaves dir oldname newname overwrite with
    | some false, some (.ok p) => decide (p.sfattr.type = .file) && p.dexists &&
      (match lookup s.fs.leaves p.ddir p.dname with
      | some (some fa) => busy env s.fs.leaves fa
      | _ => false) && overwrites s.fs p.ddir p.dname p.src
    | _, _ => false
  | .allocate fid offset _ _ => (getFattr s.fs.leaves fid).isSome && decide (offset.tmod CHUNKSIZE ≠ 0)
  | _ => false

/-- The completion of an allocation is for one that waits. -/
def answersWaiting (s : Sys) : Req → Bool
  | .layoutDone i _ => decide (i < s.pending.length)
  | _ => true

/-- The requests that the parse handlers accept, and the events, that stop neither the server nor a later
request. -/
structure Harmless (s : Sys) (e : Event) : Prop where
  parsed : e.req.Parsed
  regular : Regular s e
  waiting : answersWaiting s e.req = true
  safe : crashes e.worm e.env s e.req = false

theorem harmless_iff {e : Event} : Harmless s e ↔ e.req.Parsed ∧ Regular s e ∧ answersWaiting s e.req = true ∧
    crashes e.worm e.env s e.req = false :=
  ⟨fun h => ⟨h.parsed, h.regular, h.waiting, h.safe⟩, fun h => ⟨h.1, h.2.1, h.2.2.1, h.2.2.2⟩⟩

instance (s : Sys) (e : Event) : Decidable (Harmless s e) := decidable_of_iff _ harmless_iff.symm

theorem startAllocate_isSome {offset : ℤ} (reply : LeaseReply) (placed : Bool)
    (hr : ∀ fa, getFattr s.fs.leaves fid = some fa → fa.numReplicas ≠ 0 ∧ offset.tmod CHUNKSIZE = 0) :
    ∃ o, startAllocate s fid offset reply placed = some o := by
  have ha : ∃ r, allocateChunkId s.fs fid offset 0 true = some r := by
    unfold allocateChunkId
    rcases hf : getFattr s.fs.leaves fid with - | fa
    · exact ⟨_, rfl⟩
    obtain ⟨hn, ho⟩ := hr fa hf
    dsimp only
    rw [if_neg fun hc => hn hc.2, if_neg (not_not.mpr ho)]
    rcases getChunk s.fs.leaves fid (chunkStartOffset offset) with - | c
    · exact ⟨_, if_pos rfl⟩
    · exact ⟨_, rfl⟩
  obtain ⟨⟨st, cid, v, fs'⟩, ha⟩ := ha
  unfold startAllocate
  simp only [ha, Option.bind_eq_bind, Option.bind_some, Option.pure_def]
  by_cases h₁ : st ≠ 0 ∧ st ≠ -EEXIST
  · exact ⟨_, if_pos h₁⟩
  rw [if_neg h₁]
  by_cases h₂ : st = -EEXIST
  · rw [if_pos h₂]
    cases reply <;> exact ⟨_, rfl⟩
  rw [if_neg h₂]
  cases placed <;> exact ⟨_, rfl⟩

theorem truncate_isSome (h : Hierarchy s.fs.leaves) (hs : Stocked s) (env : Env) (fid offset : ℤ) :
    ∃ r, truncate env s.fs fid offset = some r := by
  unfold truncate
  rcases hf : getFattr s.fs.leaves fid with - | fa
  · exact ⟨_, rfl⟩
  obtain ⟨hfm, -⟩ := getFattr_some hf
  dsimp only
  by_cases ht : fa.type = .file
  swap
  · exact ⟨_, if_pos ht⟩
  rw [if_neg (not_not.mpr ht), if_neg (not_not.mpr (hs.count fa hfm ht))]
  rcases hd : (getalloc s.fs.leaves fa.id).drop (Lib.lowerBound
    (fun c => decide (c.offset < chunkStartOffset offset)) (getalloc s.fs.leaves fa.id)) with - | ⟨m, ms⟩
  · rw [hd]
    exact ⟨_, rfl⟩
  rw [hd]
  dsimp only
  by_cases hm : m.offset ≠ chunkStartOffset offset
  · exact ⟨_, if_pos hm⟩
  rw [if_neg hm]
  have hsub : ∀ dead, List.Sublist dead (m :: ms) → ∃ l', deleteChunks s.fs.leaves dead = some l' := by
    intro dead hdead
    have hsub := hdead.trans (hd ▸ List.drop_sublist _ _)
    refine deleteChunks_isSome h.uniq.plain (fun c hc => ?_) ?_
    · exact h.uniq.plain _ (mem_getalloc.mp (hsub.subset hc)).1
    · rw [getalloc_eq] at hsub
      exact ((hsub.trans List.filter_sublist).map _).subperm
  split_ifs
  · obtain ⟨l', hl'⟩ := hsub ms (List.sublist_cons_self m ms)
    exact ⟨_, by simp only [hl', Option.bind_eq_bind, Option.bind_some]; rfl⟩
  · obtain ⟨l', hl'⟩ := hsub (m :: ms) (List.Sublist.refl _)
    exact ⟨_, by simp only [hl', Option.bind_eq_bind, Option.bind_some]; rfl⟩

/-- A RENAME that does not crash leaves its source where it is when it clears its target. -/
theorem rename_spared {worm : Bool} {oldname newname : Str} {overwrite : Bool} {p : RenamePlan}
    (hw : wormForbids worm s.fs.leaves oldname newname = some false)
    (hs : crashes worm env s (.rename dir oldname newname overwrite) = false) (h : Hierarchy s.fs.leaves)
    (hp : p.Checked s.fs.leaves dir oldname newname overwrite) (ht : p.sfattr.type = .file)
    (hex : p.dexists = true) : Spared env s.fs p.ddir p.dname p.src := by
  obtain ⟨-, hsd, hsn, -⟩ := hp.mem h
  refine ⟨fun hc => hp.ne ⟨hc.1.symm.trans hsd, hc.2.symm.trans hsn⟩, fun fa hl hb du hdu hne hc => ?_⟩
  simp only [crashes, hw, renameCheck_iff.mpr hp, ht, hex, hl, hb, overwrites, hdu, hne, decide_true, ne_eq,
    not_false_eq_true, Bool.true_and, decide_eq_false_iff_not] at hs
  exact hs hc

/-- **A harmless client request completes.** -/
theorem handle_isSome {e : Event} (h : Intact s) (hs : Stocked s) (he : Harmless s e)
    (hclient : e.req.isCleanup = false) : ∃ o, handle e.worm e.env s e.req = some o := by
  obtain ⟨worm, env, req⟩ := e
  have hsafe := he.safe
  dsimp only at hclient hsafe ⊢
  cases req with
  | create dir name n exclusive =>
    rw [handle]
    by_cases hd : ¬ is_dir s.fs.leaves dir = true
    · exact ⟨_, if_pos hd⟩
    rw [if_neg hd]
    obtain ⟨r, hr⟩ := @create_isSome s.fs dir name h.tidy h.hier hs.count env n exclusive
      fun hex fa hl ht hb => by simpa [crashes, hex, hl, ht, hb] using hsafe
    exact ⟨_, by rw [hr, Option.map_some]⟩
  | mkdir dir name =>
    rw [handle]
    obtain ⟨r, hr⟩ := mkdir_isSome h.hier env dir name 0
    rw [hr, Option.map_some]
    split_ifs <;> exact ⟨_, rfl⟩
  | remove dir name =>
    rw [handle]
    obtain ⟨r, hr⟩ := remove_isSome h.tidy h.hier hs.count env dir name
    rw [hr, Option.map_some]
    split_ifs <;> exact ⟨_, rfl⟩
  | rmdir dir name =>
    rw [handle]
    obtain ⟨r, hr⟩ := rmdir_isSome h.hier dir name
    rw [hr, Option.map_some]
    split_ifs <;> exact ⟨_, rfl⟩
  | rename dir oldname newname overwrite =>
    obtain ⟨b, hb⟩ := h.hier.wormForbids_isSome worm oldname newname
    rw [handle, hb]
    cases b with
    | true => exact ⟨_, rfl⟩
    | false =>
      -- the dot entries are not renamed
      have hdot : isDot oldname → ∀ p : RenamePlan,
          ¬ p.Checked s.fs.leaves dir oldname newname overwrite := by
        intro hn p hp
        have hdots := he.regular.dots
        cases worm with
        | true =>
          have hall : isWormMutationAllowed oldname = false := by
            rcases hn with rfl | rfl <;> decide
          simp [wormForbids, hall] at hb
        | false => simp [movesDot, hn, renameCheck_iff.mpr hp] at hdots
      obtain ⟨r, hr⟩ := rename_isSome h.tidy h.hier hs.count env hdot fun p hp ht hex =>
        rename_spared hb hsafe h.hier hp ht hex
      exact ⟨_, by rw [hr, Option.map_some]⟩
  | allocate fid offset reply placed =>
    refine startAllocate_isSome reply placed fun fa hfa => ⟨hs.replicas fa (getFattr_some hfa).1, ?_⟩
    simpa [crashes, hfa] using hsafe
  | layoutDone i ok =>
    have hi : i < s.pending.length := of_decide_eq_true he.waiting
    rw [handle]
    rw [List.getElem?_eq_getElem hi]
    cases ok <;> exact ⟨_, rfl⟩
  | truncate fid offset reply placed =>
    rw [handle]
    cases worm with
    | true => exact ⟨_, rfl⟩
    | false =>
      obtain ⟨⟨st, a, fs'⟩, ht⟩ := truncate_isSome h.hier hs env fid offset
      rw [if_neg Bool.false_ne_true, ht]
      dsimp only
      by_cases hst : st > 0
      swap
      · exact ⟨_, if_neg hst⟩
      have hs' := truncate_stocked h.hier hs ht
      have ha : a.tmod CHUNKSIZE = 0 := by
        rcases truncate_spec ht with ⟨hneg, -⟩ | ⟨fa, -, -, -, ⟨-, -, rfl, -⟩ | ⟨-, rfl, -⟩⟩
        · omega
        · exact aligned_iff.mpr (aligned_chunkStartOffset offset)
        · omega
      obtain ⟨o, ho⟩ := @startAllocate_isSome { s with fs := fs' } fid a reply placed fun fa hfa =>
        ⟨hs'.replicas fa (getFattr_some hfa).1, ha⟩
      rw [if_pos hst, ho]
      exact ⟨_, rfl⟩
  | changeFileReplication fid n => exact ⟨_, rfl⟩
  | changeIncarnationNumber => exact ⟨_, rfl⟩
  | cleanupDumpster => exact absurd hclient.symm Bool.false_ne_true
  | emptyDumpsterDir => exact absurd hclient.symm Bool.false_ne_true

/-- **No harmless client request stops the server**: in every state that is reached with harmless requests and
events, every harmless client request completes, and so does every request that only reads. -/
theorem requests_complete {es : List Event} {log : List LogRec} (h₀ : newTree env = some fs)
    (hr : Run Harmless ⟨fs, []⟩ es s log) :
    (∀ e : Event, e.req.isCleanup = false → Harmless s e → ∃ o, handle e.worm e.env s e.req = some o) ∧
      ∀ r : ReadReq, ∃ status, handleRead s.fs.leaves r = some status := by
  have hinv := hr.invariant (P := fun s => Intact s ∧ Stocked s) ⟨newTree_intact h₀, newTree_stocked h₀⟩
    fun s e o h hc ho =>
      ⟨handle_intact h.1 hc.regular ho, handle_stocked h.1 h.2 hc.parsed hc.regular ho⟩
  exact ⟨fun e hclient he => handle_isSome hinv.1 hinv.2 he hclient, fun r => handleRead_isSome hinv.1.hier r⟩

/-- The requests that the parse handlers accept. -/
def Accepted (_ : Sys) (e : Event) : Prop := e.req.Parsed

instance (s : Sys) (e : Event) : Decidable (Accepted s e) := by unfold Accepted; infer_instance

/-- A file with one chunk that is overwritten while it is busy, grows and is renamed. -/
def busyOverwrite : List Event :=
  [⟨false, busyEnv, .create ROOTFID ['f'] 1 false⟩, ⟨false, busyEnv, .allocate 3 0 .valid true⟩,
    ⟨false, busyEnv, .layoutDone 0 true⟩, ⟨false, busyEnv, .create ROOTFID ['f'] 1 false⟩,
    ⟨false, busyEnv, .truncate 5 CHUNKSIZE .valid true⟩, ⟨false, busyEnv, .layoutDone 0 true⟩,
    ⟨false, busyEnv, .rename ROOTFID ['f'] ['g'] true⟩]

theorem busyOverwrite_complete : ∃ s log, exec Harmless rootSys busyOverwrite = some (s, log) ∧ log.length = 5 ∧
    (∀ e : Event, e.req.isCleanup = false → Harmless s e → ∃ o, handle e.worm e.env s e.req = some o) ∧
    Harmless s ⟨false, busyEnv, .remove ROOTFID ['g']⟩ := by
  have hx : ((exec Harmless rootSys busyOverwrite).map fun r =>
      (r.2.length, decide (Harmless r.1 ⟨false, busyEnv, .remove ROOTFID ['g']⟩))) = some (5, true) := by
    decide +kernel
  obtain ⟨⟨s, log⟩, hx, he⟩ := Option.map_eq_some_iff.mp hx
  rw [Prod.mk.injEq] at he
  exact ⟨s, log, hx, he.1, (requests_complete (newTree_eq idleEnv) (Run.of_exec hx)).1, of_decide_eq_true he.2⟩

/-- An ALLOCATE at the offset 1 of a file fails an assertion. -/
theorem allocate_stops : ∃ s log, exec Accepted rootSys [idle (.create ROOTFID ['f'] 1 false)] = some (s, log) ∧
    Accepted s (idle (.allocate 3 1 .valid true)) ∧
    handle false idleEnv s (.allocate 3 1 .valid true) = none := by
  have hx : ((exec Accepted rootSys [idle (.create ROOTFID ['f'] 1 false)]).map fun r =>
      decide (handle false idleEnv r.1 (.allocate 3 1 .valid true) = none)) = some true := by decide +kernel
  obtain ⟨⟨s, log⟩, hx, hn⟩ := Option.map_eq_some_iff.mp hx
  exact ⟨s, log, hx, (by decide : (Req.allocate 3 1 .valid true).Parsed), of_decide_eq_true hn⟩

end Kfs
