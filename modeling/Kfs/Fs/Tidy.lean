import Kfs.Fs.Spec

/-!
# Ids and names in reachable states

* `Tidy`: no id above the seed of `fileID`, one type for each id, and legal names for files;
* `Tidy.sub`, `Tidy.insert_dentry`, `Tidy.insert_fattr`, `Tidy.update`: what the updates of the sequence
  need to keep it;
* `mkdir_tidy`, `rmdir_tidy`, `removeF_tidy`, `renameWith_tidy`, `create_tidy`, `truncate_tidy`, …: the
  operations keep it.
-/

namespace Kfs

variable {env : Env} {fs fs' : Fs} {l l' : List Meta} {dir fid st : ℤ} {name : Str}

/-- Ids are at most the seed, an id has one type, and files have legal names. -/
structure Tidy (fs : Fs) : Prop where
  root : ROOTFID ≤ fs.fileID
  dir_le : ∀ d, .dentry d ∈ fs.leaves → d.dir ≤ fs.fileID
  id_le : ∀ d, .dentry d ∈ fs.leaves → d.id ≤ fs.fileID
  attr_le : ∀ f, .fattr f ∈ fs.leaves → f.id ≤ fs.fileID
  type_eq : ∀ f f', .fattr f ∈ fs.leaves → .fattr f' ∈ fs.leaves → f.id = f'.id → f.type = f'.type
  legal : ∀ d f, .dentry d ∈ fs.leaves → .fattr f ∈ fs.leaves → f.id = d.id →
    f.type = .dir ∨ legalname d.name = true

namespace Tidy

/-- The invariant depends on the entries, the ids and types of the attributes, and the seed. -/
theorem of_imp (h : Tidy fs) (hid : fs.fileID ≤ fs'.fileID)
    (hd : ∀ d, .dentry d ∈ fs'.leaves → .dentry d ∈ fs.leaves)
    (hf : ∀ f, .fattr f ∈ fs'.leaves → ∃ f₀, .fattr f₀ ∈ fs.leaves ∧ f₀.id = f.id ∧ f₀.type = f.type) :
    Tidy fs' where
  root := h.root.trans hid
  dir_le d hm := (h.dir_le d (hd d hm)).trans hid
  id_le d hm := (h.id_le d (hd d hm)).trans hid
  attr_le f hm := by
    obtain ⟨f₀, h₀, he, -⟩ := hf f hm
    exact he ▸ (h.attr_le f₀ h₀).trans hid
  type_eq f f' hm hm' he := by
    obtain ⟨f₀, h₀, hi, ht⟩ := hf f hm
    obtain ⟨f₁, h₁, hi', ht'⟩ := hf f' hm'
    rw [← ht, ← ht']
    exact h.type_eq f₀ f₁ h₀ h₁ (by rw [hi, hi', he])
  legal d f hm hm' he := by
    obtain ⟨f₀, h₀, hi, ht⟩ := hf f hm'
    rw [← ht]
    exact h.legal d f₀ (hd d hm) h₀ (by rw [hi, he])

theorem sub (h : Tidy fs) (hl : l ⊆ fs.leaves) : Tidy { fs with leaves := l } :=
  h.of_imp le_rfl (fun _ hm => hl hm) fun f hm => ⟨f, hl hm, rfl, rfl⟩

theorem insert_dentry (h : Tidy fs) {d : MetaDentry} (hdir : d.dir ≤ fs.fileID)
    (hid : d.id ≤ fs.fileID)
    (hl : ∀ f, .fattr f ∈ fs.leaves → f.id = d.id → f.type = .dir ∨ legalname d.name = true) :
    Tidy { fs with leaves := Leaves.insert fs.leaves (.dentry d) } where
  root := h.root
  dir_le e hm := by
    rcases Leaves.mem_insert.mp hm with he | hm
    · obtain rfl := Meta.dentry.inj he
      exact hdir
    · exact h.dir_le e hm
  id_le e hm := by
    rcases Leaves.mem_insert.mp hm with he | hm
    · obtain rfl := Meta.dentry.inj he
      exact hid
    · exact h.id_le e hm
  attr_le f hm := h.attr_le f (by simpa [Leaves.mem_insert] using hm)
  type_eq f f' hm hm' :=
    h.type_eq f f' (by simpa [Leaves.mem_insert] using hm) (by simpa [Leaves.mem_insert] using hm')
  legal e f hm hm' he := by
    have hm'' : .fattr f ∈ fs.leaves := by simpa [Leaves.mem_insert] using hm'
    rcases Leaves.mem_insert.mp hm with he' | hm
    · obtain rfl := Meta.dentry.inj he'
      exact hl f hm'' he
    · exact h.legal e f hm hm'' he

theorem insert_fattr (h : Tidy fs) {f : MetaFattr} (hid : f.id ≤ fs.fileID)
    (ht : ∀ f', .fattr f' ∈ fs.leaves → f'.id = f.id → f'.type = f.type)
    (hl : ∀ d, .dentry d ∈ fs.leaves → d.id = f.id → f.type = .dir ∨ legalname d.name = true) :
    Tidy { fs with leaves := Leaves.insert fs.leaves (.fattr f) } where
  root := h.root
  dir_le e hm := h.dir_le e (by simpa [Leaves.mem_insert] using hm)
  id_le e hm := h.id_le e (by simpa [Leaves.mem_insert] using hm)
  attr_le g hm := by
    rcases Leaves.mem_insert.mp hm with he | hm
    · obtain rfl := Meta.fattr.inj he
      exact hid
    · exact h.attr_le g hm
  type_eq g g' hm hm' he := by
    rcases Leaves.mem_insert.mp hm with hg | hm₁ <;>
      rcases Leaves.mem_insert.mp hm' with hg' | hm₁'
    · rw [Meta.fattr.inj hg, Meta.fattr.inj hg']
    · obtain rfl := Meta.fattr.inj hg
      exact (ht g' hm₁' he.symm).symm
    · obtain rfl := Meta.fattr.inj hg'
      exact ht g hm₁ he
    · exact h.type_eq g g' hm₁ hm₁' he
  legal e g hm hm' he := by
    have hm'' : .dentry e ∈ fs.leaves := by simpa [Leaves.mem_insert] using hm
    rcases Leaves.mem_insert.mp hm' with hg | hm'
    · obtain rfl := Meta.fattr.inj hg
      exact hl e hm'' he.symm
    · exact h.legal e g hm'' hm' he

theorem insert_chunk (h : Tidy fs) (c : MetaChunkInfo) :
    Tidy { fs with leaves := Leaves.insert fs.leaves (.chunkinfo c) } :=
  h.of_imp le_rfl (fun d hm => by simpa [Leaves.mem_insert] using hm) fun f hm =>
    ⟨f, by simpa [Leaves.mem_insert] using hm, rfl, rfl⟩

/-- Overwriting an item by one of the same kind, with the same id and type. -/
theorem update (h : Tidy fs) {k : Key} {g : Meta → Meta}
    (hg : ∀ y ∈ fs.leaves, y.key.eqv k = true → (∃ c, g y = .chunkinfo c) ∨
      ∃ f f', y = .fattr f ∧ g y = .fattr f' ∧ f.id = f'.id ∧ f.type = f'.type) :
    Tidy { fs with leaves := Leaves.update fs.leaves k g } := by
  refine h.of_imp le_rfl (fun d hm => ?_) fun f hm => ?_
  · rcases Leaves.mem_update hm with hm | ⟨y, hy, hk, he⟩
    · exact hm
    · rcases hg y hy hk with ⟨c, hc⟩ | ⟨f, f', -, hf', -⟩
      · rw [hc] at he; simp at he
      · rw [hf'] at he; simp at he
  · rcases Leaves.mem_update hm with hm | ⟨y, hy, hk, he⟩
    · exact ⟨f, hm, rfl, rfl⟩
    · rcases hg y hy hk with ⟨c, hc⟩ | ⟨f₀, f', hy', hf', hi, ht⟩
      · rw [hc] at he; simp at he
      · rw [hf'] at he
        obtain rfl := Meta.fattr.inj he
        exact ⟨f₀, hy' ▸ hy, hi, ht⟩

theorem bump (h : Tidy fs) : Tidy { fs with fileID := fs.fileID + 1 } :=
  h.of_imp (by change fs.fileID ≤ fs.fileID + 1; omega) (fun _ hm => hm) fun f hm =>
    ⟨f, hm, rfl, rfl⟩

theorem getFattr_le (h : Tidy fs) {f : MetaFattr} (hf : getFattr fs.leaves fid = some f) :
    fid ≤ fs.fileID := by
  obtain ⟨hm, he⟩ := getFattr_some hf
  exact he ▸ h.attr_le f hm

end Tidy

/-! ## The operations -/

theorem legalname_dot : legalname ['.'] = true := by decide

theorem legalname_dotdot : legalname ['.', '.'] = true := by decide

theorem Tidy.mkdirAt (h : Tidy fs) {dname : Str} {id : ℤ} (hdir : dir ≤ fs.fileID)
    (hid : id ≤ fs.fileID)
    (ht : ∀ f, .fattr f ∈ fs.leaves → f.id = id → f.type = .dir) :
    Tidy (Fs.mkdirAt env fs dir dname id) := by
  have h₁ := h.insert_dentry (d := ⟨dir, dname, id⟩) hdir hid fun f hf he => Or.inl (ht f hf he)
  have h₂ := h₁.insert_fattr (f := MetaFattr.new env .dir id 1) hid
    (fun f hf he => ht f (by simpa [Leaves.mem_insert] using hf) he) fun _ _ _ => Or.inl rfl
  have h₃ := h₂.insert_dentry (d := ⟨id, ['.'], id⟩) hid hid fun _ _ _ => Or.inr legalname_dot
  exact h₃.insert_dentry (d := ⟨id, ['.', '.'], dir⟩) hid hdir fun _ _ _ => Or.inr legalname_dotdot

theorem mkdir_tidy (h : Tidy fs) {dname : Str} {id : ℤ} (hdir : dir ≤ fs.fileID)
    (ht : dname = ['/'] → ∀ f, .fattr f ∈ fs.leaves → f.id = dir → f.type = .dir)
    (hm : mkdir env fs dir dname 0 = some (st, id, fs')) : Tidy fs' := by
  rcases mkdir_spec hm with ⟨-, rfl⟩ | ⟨-, -, -, ⟨-, -, rfl, rfl⟩ | ⟨-, hs, rfl, rfl⟩ | ⟨h0, -⟩⟩
  · exact h
  · refine h.bump.mkdirAt (by change dir ≤ fs.fileID + 1; omega) le_rfl fun f hf he => ?_
    have := h.attr_le f hf
    omega
  · exact h.mkdirAt hdir hdir (ht hs)
  · exact absurd rfl h0

theorem RmdirDone.subset {dname : Str} {fa : MetaFattr} (h : RmdirDone fs dir dname fa l') :
    l' ⊆ fs.leaves := by
  obtain ⟨l₁, l₂, l₃, h₁, h₂, h₃, h₄⟩ := h.done
  exact fun _ hm => Leaves.delOk_subset h₁ (Leaves.delOk_subset h₂ (Leaves.delOk_subset h₃
    (Leaves.delOk_subset h₄ hm)))

theorem rmdir_tidy (h : Tidy fs) {dname : Str} (hr : rmdir fs dir dname = some (st, fs')) :
    Tidy fs' ∧ fs'.fileID = fs.fileID := by
  rcases rmdir_spec hr with ⟨-, rfl⟩ | ⟨-, fa, l', hd, rfl⟩
  · exact ⟨h, rfl⟩
  · exact ⟨h.sub hd.subset, rfl⟩

theorem deleteChunks_subset : ∀ {cs : List MetaChunkInfo} {l l' : List Meta},
    deleteChunks l cs = some l' → l' ⊆ l
  | [], l, l', h => by
    obtain rfl : l = l' := by simpa [deleteChunks] using h
    exact fun _ hm => hm
  | c :: cs, l, l', h => by
    simp only [deleteChunks, List.foldlM_cons, Option.bind_eq_bind, Option.bind_eq_some_iff] at h
    obtain ⟨l₁, h₁, h₂⟩ := h
    exact fun _ hm => Leaves.delOk_subset h₁ (deleteChunks_subset h₂ hm)

theorem dropChunks_subset {fa : MetaFattr} {cs : List MetaChunkInfo}
    (h : dropChunks l fa cs = some l') : l' ⊆ l := by
  unfold dropChunks at h
  split_ifs at h
  · exact deleteChunks_subset h
  · obtain rfl := Option.some.inj h
    exact fun _ hm => hm

theorem unlink_subset {fa : MetaFattr} (h : unlink l dir name fa false = some l') : l' ⊆ l := by
  obtain ⟨l₁, h₁, h₂⟩ := unlink_iff.mp h
  exact fun _ hm => Leaves.delOk_subset h₁ (Leaves.delOk_subset h₂ hm)

/-- The removals that `rename` is run with keep the invariant. -/
def KeepsTidy (rm : Fs → ℤ → Str → Option (ℤ × Fs)) : Prop :=
  ∀ ⦃fs dir name st fs'⦄, Tidy fs → rm fs dir name = some (st, fs') →
    Tidy fs' ∧ fs.fileID ≤ fs'.fileID

section

variable {rm : Fs → ℤ → Str → Option (ℤ × Fs)}

theorem clearTarget_tidy (hrm : KeepsTidy rm) (h : Tidy fs) {p : RenamePlan}
    (hc : clearTarget rm fs p = some (st, fs')) : Tidy fs' ∧ fs.fileID ≤ fs'.fileID := by
  unfold clearTarget at hc
  split_ifs at hc
  · obtain ⟨h', he⟩ := rmdir_tidy h hc
    exact ⟨h', he.ge⟩
  · exact hrm h hc
  · obtain ⟨-, rfl⟩ : 0 = st ∧ fs = fs' := by simpa using hc
    exact ⟨h, le_rfl⟩

theorem relink_tidy (h : Tidy fs) {p : RenamePlan} (hn : legalname p.dname = true)
    (hd : p.ddir ≤ fs.fileID) (hr : relink env fs.leaves p = some l') :
    Tidy { fs with leaves := l' } := by
  obtain ⟨hs, hr⟩ := relink_spec hr
  have hid := h.id_le _ hs
  split_ifs at hr with hdir
  · obtain ⟨-, l₁, l₂, h₁, h₂, rfl⟩ := hr
    have h₃ := h.sub fun _ hm => Leaves.delOk_subset h₁ (Leaves.delOk_subset h₂ hm)
    have h₄ := h₃.insert_dentry (d := ⟨p.ddir, p.dname, p.src.id⟩) hd hid fun _ _ _ => Or.inr hn
    exact h₄.insert_dentry (d := ⟨p.src.id, ['.', '.'], p.ddir⟩) hid hd
      fun _ _ _ => Or.inr legalname_dotdot
  · obtain ⟨l₂, h₂, rfl⟩ := hr
    have h₃ := h.sub (Leaves.delOk_subset h₂)
    exact h₃.insert_dentry (d := ⟨p.ddir, p.dname, p.src.id⟩) hd hid fun _ _ _ => Or.inr hn

theorem renameWith_tidy (hrm : KeepsTidy rm) (h : Tidy fs) {parent : ℤ} {oldname newname : Str}
    {overwrite : Bool}
    (hr : renameWith rm env fs parent oldname newname overwrite = some (st, fs')) :
    Tidy fs' ∧ fs.fileID ≤ fs'.fileID := by
  rcases renameWith_spec hr with ⟨-, rfl⟩ | ⟨p, hp, ⟨-, hc⟩ | ⟨-, fs₁, l', hc, hl, rfl⟩⟩
  · exact ⟨h, le_rfl⟩
  · exact clearTarget_tidy hrm h hc
  · obtain ⟨h₁, hle⟩ := clearTarget_tidy hrm h hc
    obtain ⟨hs, hdir, -⟩ := getDentry_some hp.src
    have hd : p.ddir ≤ fs.fileID := by
      rcases renameTarget_dir hp.target with he | ⟨f, hf, he, -⟩
      · exact he ▸ hdir ▸ h.dir_le _ hs
      · exact he ▸ h.attr_le f hf
    exact ⟨relink_tidy h₁ hp.legal (hd.trans hle) hl, hle⟩

theorem getDumpster_tidy (h : Tidy fs) {fa : MetaFattr} (hg : getDumpster env fs = some (fa, fs')) :
    Tidy fs' ∧ fs.fileID ≤ fs'.fileID := by
  rcases getDumpster_spec hg with ⟨-, rfl⟩ | ⟨-, rfl, -⟩
  · exact ⟨h, le_rfl⟩
  · have hroot := h.root
    refine ⟨h.bump.mkdirAt (by change ROOTFID ≤ fs.fileID + 1; omega) le_rfl fun f hf he => ?_, ?_⟩
    · have := h.attr_le f hf
      omega
    · change fs.fileID ≤ fs.fileID + 1
      omega

theorem moveToDumpsterWith_tidy (hrm : KeepsTidy rm) (h : Tidy fs)
    (hm : moveToDumpsterWith rm env fs dir name = some (st, fs')) :
    Tidy fs' ∧ fs.fileID ≤ fs'.fileID := by
  obtain ⟨fa, fs₁, hg, ⟨-, -, rfl⟩ | ⟨-, hr⟩⟩ := moveToDumpsterWith_spec hm
  · exact getDumpster_tidy h hg
  · obtain ⟨h₁, hle⟩ := getDumpster_tidy h hg
    have h₂ : Tidy { fs₁ with counter := fs₁.counter + 1 } := h₁.of_imp le_rfl (fun _ hm => hm)
      fun f hf => ⟨f, hf, rfl, rfl⟩
    obtain ⟨h₃, hle'⟩ := renameWith_tidy hrm h₂ hr
    exact ⟨h₃, hle.trans hle'⟩

end

/-- `remove` keeps the invariant, by induction on the depth of its calls through `moveToDumpster`. -/
theorem removeF_tidy (env : Env) : ∀ fuel, KeepsTidy (removeF fuel env)
  | 0 => by
    intro fs dir name st fs' _ hr
    simp [removeF] at hr
  | fuel + 1 => by
    intro fs dir name st fs' h hr
    rcases removeF_spec hr with ⟨-, rfl⟩ | ⟨fa, -, -, -, ⟨-, -, hm⟩ | ⟨-, -, l₁, l', h₁, h₂, rfl⟩⟩
    · exact ⟨h, le_rfl⟩
    · exact moveToDumpsterWith_tidy (removeF_tidy env fuel) h hm
    · exact ⟨h.sub fun _ hm => dropChunks_subset h₁ (unlink_subset h₂ hm), le_rfl⟩

theorem removeOld_tidy (h : Tidy fs) {fa : Option MetaFattr}
    (hr : removeOld env fs dir name fa = some (st, fs')) : Tidy fs' ∧ fs.fileID ≤ fs'.fileID := by
  unfold removeOld at hr
  split_ifs at hr
  · exact removeF_tidy env 2 h hr
  · obtain ⟨-, rfl⟩ : 0 = st ∧ fs = fs' := by simpa using hr
    exact ⟨h, le_rfl⟩

theorem link_spec {t : FileType} {id n : ℤ} (h : link env l dir name t id n = some l') :
    legalname name = true ∧ l' = if name ≠ ['.'] ∧ name ≠ ['.', '.'] then
      Leaves.insert (Leaves.insert l (.dentry ⟨dir, name, id⟩)) (.fattr (MetaFattr.new env t id n))
      else Leaves.insert l (.dentry ⟨dir, name, id⟩) := by
  unfold link at h
  split_ifs at h with hn hd
  · exact ⟨hn, by rw [if_pos hd]; exact (Option.some.inj h).symm⟩
  · exact ⟨hn, by rw [if_neg hd]; exact (Option.some.inj h).symm⟩

theorem create_tidy (h : Tidy fs) {id n : ℤ} {exclusive : Bool} (hdir : dir ≤ fs.fileID)
    (hc : create env fs dir name 0 n exclusive = some (st, id, fs')) : Tidy fs' := by
  rcases create_spec hc with
    ⟨-, rfl⟩ | ⟨hn, -, fa, -, -, st₁, fs₁, hr, ⟨-, -, rfl⟩ | ⟨-, -, rfl, l', hl, rfl⟩⟩
  · exact h
  · exact (removeOld_tidy h hr).1
  · obtain ⟨h₁, hle⟩ := removeOld_tidy h hr
    simp only [if_true] at hl ⊢
    have h₂ := h₁.bump.insert_dentry (d := ⟨dir, name, fs₁.fileID + 1⟩)
      (by change dir ≤ fs₁.fileID + 1; omega) le_rfl fun _ _ _ => Or.inr hn
    obtain ⟨-, rfl⟩ := link_spec hl
    split_ifs
    · refine h₂.insert_fattr le_rfl (fun f hf he => ?_) fun d hd he => ?_
      · have := h₁.attr_le f (by simpa [Leaves.mem_insert] using hf)
        have he : f.id = fs₁.fileID + 1 := he
        omega
      · rcases Leaves.mem_insert.mp hd with hd | hd
        · obtain rfl := Meta.dentry.inj hd
          exact Or.inr hn
        · have := h₁.id_le d hd
          have he : d.id = fs₁.fileID + 1 := he
          omega
    · exact h₂

/-! ## Chunks and the dumpster -/

/-- Overwriting the attributes of `fid` by attributes of the same id and type. -/
theorem Tidy.setFattr (h : Tidy fs) {f g : MetaFattr} (hf : .fattr f ∈ fs.leaves) (hfi : f.id = fid)
    (hl : l ⊆ fs.leaves) (hid : g.id = f.id) (ht : g.type = f.type) :
    Tidy { fs with leaves := setFattr l fid g } := by
  refine (h.sub hl).update fun y hy hk => Or.inr ?_
  obtain ⟨f', rfl, he⟩ := (eqv_fattr y fid).mp hk
  exact ⟨f', g, rfl, rfl, by rw [he, hid, hfi],
    by rw [ht]; exact h.type_eq f' f (hl hy) hf (he.trans hfi.symm)⟩

theorem assignChunkId_tidy (h : Tidy fs) {offset chunkId chunkVersion : ℤ}
    (ha : assignChunkId env fs fid offset chunkId chunkVersion = (st, fs')) :
    Tidy fs' := by
  rcases assignChunkId_spec ha with ⟨-, -, rfl⟩ | ⟨fa, -, ⟨c, -, -, -, rfl⟩ | ⟨c, -, -, -, rfl⟩ | ⟨-, -, rfl⟩⟩
  · exact h
  · exact h
  · exact h.update fun y hy hk => Or.inl ⟨_, rfl⟩
  · refine (h.insert_chunk ⟨fid, offset, chunkId, chunkVersion⟩).update fun y hy hk => Or.inr ?_
    obtain ⟨f, rfl, he⟩ := (eqv_fattr y fid).mp hk
    exact ⟨f, _, rfl, rfl, rfl, rfl⟩

theorem truncate_tidy (h : Tidy fs) {offset a : ℤ}
    (ht : truncate env fs fid offset = some (st, a, fs')) : Tidy fs' := by
  rcases truncate_spec ht with ⟨-, rfl⟩ | ⟨fa, hf, -, -, ⟨-, -, -, rfl⟩ | ⟨-, -, l₁, hl, rfl⟩⟩
  · exact h
  · obtain ⟨hfm, hfi⟩ := getFattr_some hf
    exact h.setFattr hfm hfi (fun _ hm => hm) rfl rfl
  · obtain ⟨hfm, hfi⟩ := getFattr_some hf
    exact h.setFattr hfm hfi (deleteChunks_subset hl) rfl rfl

theorem changeFileReplication_tidy (h : Tidy fs) {n : ℤ}
    (hc : changeFileReplication fs fid n = (st, fs')) : Tidy fs' := by
  unfold changeFileReplication at hc
  rcases hf : getFattr fs.leaves fid with - | fa
  · obtain ⟨-, rfl⟩ : -ENOENT = st ∧ fs = fs' := by simpa [hf] using hc
    exact h
  · simp only [hf, Prod.mk.injEq] at hc
    obtain ⟨-, rfl⟩ := hc
    obtain ⟨hfm, hfi⟩ := getFattr_some hf
    exact h.setFattr hfm hfi (fun _ hm => hm) rfl rfl

/-- The removals of `cleanupDumpster` keep what each of them keeps. -/
theorem cleanupDumpster_induct {P : Fs → Prop}
    (hstep : ∀ fs dir name st fs', P fs → remove env fs dir name = some (st, fs') → P fs')
    (h : P fs) (hc : cleanupDumpster env fs = some fs') : P fs' := by
  unfold cleanupDumpster at hc
  rcases hl : lookup fs.leaves ROOTFID DUMPSTERDIR with - | - | fa
  · simp [hl] at hc
  · simp [hl] at hc
  simp only [hl, Option.bind_eq_bind, Option.bind_some, Option.bind_eq_some_iff] at hc
  obtain ⟨v, -, hc⟩ := hc
  generalize v.getD [] = es at hc
  clear hl v
  induction es generalizing fs with
  | nil =>
    obtain rfl : fs = fs' := by simpa using hc
    exact h
  | cons e es ih =>
    simp only [List.foldlM_cons, Option.bind_eq_bind, Option.bind_eq_some_iff,
      Option.map_eq_some_iff, Prod.exists] at hc
    obtain ⟨fs₁, ⟨st, _, hr, rfl⟩, hc⟩ := hc
    exact ih (hstep fs fa.id e.name st _ h hr) hc

theorem cleanupDumpster_tidy (h : Tidy fs) (hc : cleanupDumpster env fs = some fs') : Tidy fs' :=
  cleanupDumpster_induct (fun _ _ _ _ _ h hr => (removeF_tidy env 2 h hr).1) h hc

theorem emptyDumpsterDir_tidy (h : Tidy fs) (he : emptyDumpsterDir env fs = some fs') : Tidy fs' := by
  unfold emptyDumpsterDir makeDumpsterDir at he
  simp only [Option.bind_eq_some_iff, Option.map_eq_some_iff, Prod.exists] at he
  obtain ⟨_, ⟨st, id, fs₁, hm, rfl⟩, hc⟩ := he
  exact cleanupDumpster_tidy (mkdir_tidy h h.root (fun hs => absurd hs (by decide)) hm) hc

end Kfs
