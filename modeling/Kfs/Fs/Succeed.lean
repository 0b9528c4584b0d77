import Kfs.Fs.Tidy

/-!
# When the operations succeed

The other direction of the statements of `Kfs.Fs.Spec`: what an operation must find to succeed.

* `mkdir_run`, `RmdirDone.run`, `removeF_run`, `relink_run`, `renameWith_run`, `create_run`;
* `deleteChunks_isSome`: the chunks that are there can be removed.
-/

namespace Kfs

variable {env : Env} {fs : Fs} {l l' l₁ : List Meta} {dir fid st : ℤ} {name : Str}

/-- `mkdir` with the id that replay gives. -/
theorem mkdir_run {dname : Str} {id : ℤ} (hn : ¬ (legalname dname = false ∧ dir ≠ ROOTFID ∧ dname ≠ ['/']))
    (hl : lookup fs.leaves dir dname = some none) (hid : id ≠ 0) :
    mkdir env fs dir dname id = some (0, id, Fs.mkdirAt env fs dir dname id) := by
  unfold mkdir
  rw [if_neg (by simpa using hn)]
  simp [hl, link_dot env _ _ (Or.inl rfl), link_dot env _ _ (Or.inr rfl), hid, Fs.mkdirAt]

theorem RmdirDone.run {dname : Str} {fa : MetaFattr} (h : RmdirDone fs dir dname fa l') :
    rmdir fs dir dname = some (0, { fs with leaves := l' }) := by
  obtain ⟨hl, ht, hd, ⟨h₁, h₂⟩, he, l₁, l₂, l₃, hd₁, hd₂, hd₃, hd₄⟩ := h
  have hu : unlink l₂ dir dname fa false = some l' := unlink_iff.mpr ⟨l₃, hd₃, hd₄⟩
  unfold rmdir
  simp [hl, ht, hd, h₁, h₂, he, hd₁, hd₂, hu]

/-- `remove` of a file that is not busy. -/
theorem removeF_run {fuel : ℕ} {fa : MetaFattr} (hl : lookup fs.leaves dir name = some (some fa))
    (ht : fa.type = .file) (hc : fa.chunkcount > 0 → fa.chunkcount = (getalloc fs.leaves fa.id).length)
    (hb : ∀ c ∈ getalloc fs.leaves fa.id, env.leased c.chunkId = false)
    (h₁ : dropChunks fs.leaves fa (getalloc fs.leaves fa.id) = some l₁)
    (h₂ : unlink l₁ dir name fa false = some l') :
    removeF (fuel + 1) env fs dir name = some (0, { fs with leaves := l' }) := by
  have hb' : ¬ (fa.chunkcount > 0 ∧ ((getalloc fs.leaves fa.id).any fun c => env.leased c.chunkId) = true) := by
    rintro ⟨-, ha⟩
    obtain ⟨c, hcm, hcl⟩ := List.any_eq_true.mp ha
    rw [hb c hcm] at hcl
    exact Bool.false_ne_true hcl
  have hc' : ¬ (fa.chunkcount > 0 ∧ fa.chunkcount ≠ (getalloc fs.leaves fa.id).length) :=
    fun h => h.2 (hc h.1)
  unfold removeF
  simp only [hl, Option.bind_eq_bind, Option.bind_some, ht, ne_eq, not_true_eq_false, if_false]
  rw [if_neg hc', if_neg hb', h₁, Option.bind_some, h₂]
  rfl

theorem relink_run {p : RenamePlan} (hs : .dentry p.src ∈ l)
    (h : if p.sfattr.type = .dir then .fattr p.sfattr ∈ l ∧
      ∃ l₁ l₂, Leaves.delOk l (.dentry ⟨p.src.id, ['.', '.'], p.sfattr.id⟩) = some l₁ ∧
        Leaves.delOk l₁ (.dentry p.src) = some l₂ ∧
        l' = Leaves.insert (Leaves.insert l₂ (.dentry ⟨p.ddir, p.dname, p.src.id⟩))
          (.dentry ⟨p.src.id, ['.', '.'], p.ddir⟩)
      else ∃ l₂, Leaves.delOk l (.dentry p.src) = some l₂ ∧
        l' = Leaves.insert l₂ (.dentry ⟨p.ddir, p.dname, p.src.id⟩)) : relink env l p = some l' := by
  unfold relink
  by_cases hdir : p.sfattr.type = .dir
  · rw [if_pos hdir] at h
    obtain ⟨hf, l₁, l₂, h₁, h₂, rfl⟩ := h
    rw [if_pos ⟨hs, fun _ => hf⟩]
    simp [hdir, h₁, h₂, link_dot env _ _ (Or.inr rfl)]
  · rw [if_neg hdir] at h
    obtain ⟨l₂, h₂, rfl⟩ := h
    rw [if_pos ⟨hs, fun hd => absurd hd hdir⟩]
    simp [hdir, h₂]

theorem renameWith_run {rm : Fs → ℤ → Str → Option (ℤ × Fs)} {parent : ℤ} {oldname newname : Str}
    {overwrite : Bool} {p : RenamePlan} {fs₁ : Fs} (hp : p.Checked fs.leaves parent oldname newname overwrite)
    (hc : clearTarget rm fs p = some (0, fs₁)) (hr : relink env fs₁.leaves p = some l') :
    renameWith rm env fs parent oldname newname overwrite = some (0, { fs₁ with leaves := l' }) := by
  unfold renameWith
  rw [renameCheck_iff.mpr hp]
  simp [hc, hr]

/-- `create` with the id that replay gives. -/
theorem create_run {id n : ℤ} {exclusive : Bool} {fa : Option MetaFattr} {fs₁ : Fs} (hn : legalname name = true)
    (hr : 0 < n) (hl : lookup fs.leaves dir name = some fa)
    (hf : ∀ f, fa = some f → f.type = .file ∧ exclusive = false)
    (h₁ : removeOld env fs dir name fa = some (0, fs₁)) (hid : id ≠ 0)
    (hk : link env fs₁.leaves dir name .file id n = some l') :
    create env fs dir name id n exclusive = some (0, id, { fs₁ with leaves := l' }) := by
  have ht : ¬ (fa.any fun fa => decide (fa.type ≠ .file)) = true := by
    rcases fa with - | f
    · simp
    · simp [(hf f rfl).1]
  have hx : ¬ (fa.isSome = true ∧ exclusive = true) := by
    rintro ⟨hs, hx⟩
    obtain ⟨f, rfl⟩ := Option.isSome_iff_exists.mp hs
    rw [(hf f rfl).2] at hx
    exact Bool.false_ne_true hx
  unfold create
  rw [if_neg (not_not.mpr hn), if_neg (not_le.mpr hr)]
  simp only [hl, Option.bind_eq_bind, Option.bind_some]
  rw [if_neg ht, if_neg hx, h₁, Option.bind_some]
  simp [EBUSY, hid, hk]

/-! ## Removing chunks -/

theorem delOk_isSome_of_mem {m x : Meta} (hx : x ∈ l) (hh : Leaves.hits m x = true) :
    ∃ l', Leaves.delOk l m = some l' := ⟨_, if_pos (List.any_eq_true.mpr ⟨x, hx, hh⟩)⟩

/-- Where a chunk is. -/
def MetaChunkInfo.place (c : MetaChunkInfo) : ℤ × ℤ := (c.id, c.offset)

theorem hits_chunk_iff {c c' : MetaChunkInfo} (hc : c.offset ≠ -1) (hc' : c'.offset ≠ -1) :
    Leaves.hits (.chunkinfo c) (.chunkinfo c') = true ↔ c'.place = c.place := by
  rw [Leaves.hits, Bool.and_eq_true, Key.eqv_iff]
  simp only [Meta.key, Meta.matchItem, Meta.id, MetaChunkInfo.place, Prod.mk.injEq]
  constructor
  · rintro ⟨⟨-, h₁, h₂⟩, -⟩
    exact ⟨h₁.symm, by omega⟩
  · rintro ⟨h₁, h₂⟩
    exact ⟨⟨trivial, h₁.symm, Or.inl h₂.symm⟩, decide_eq_true h₁.symm⟩

/-- The chunks of a list can be removed when there are as many at each place. -/
theorem deleteChunks_isSome : ∀ {cs : List MetaChunkInfo} {l : List Meta}, (∀ x ∈ l, x.key.Plain) →
    (∀ c ∈ cs, c.offset ≠ -1) → (cs.map MetaChunkInfo.place).Subperm ((chunks l).map MetaChunkInfo.place) →
    ∃ l', deleteChunks l cs = some l'
  | [], l, _, _, _ => ⟨l, rfl⟩
  | c :: cs, l, hp, hc, hs => by
    have hcm : c.place ∈ (chunks l).map MetaChunkInfo.place := hs.subset (by simp)
    obtain ⟨c', hc', he⟩ := List.mem_map.mp hcm
    have hne : ∀ c', .chunkinfo c' ∈ l → c'.offset ≠ -1 := fun c' hm => hp _ hm
    have hhit : Leaves.hits (.chunkinfo c) (.chunkinfo c') = true :=
      (hits_chunk_iff (hc c List.mem_cons_self) (hne c' (mem_chunks.mp hc'))).mpr he
    obtain ⟨l₁, hl₁⟩ := delOk_isSome_of_mem (mem_chunks.mp hc') hhit
    -- one chunk at the place of `c` goes
    have hperm : ∃ x, x.place = c.place ∧ List.Perm (chunks l) (x :: chunks l₁) := by
      have hl₁' := hl₁
      unfold Leaves.delOk at hl₁'
      split_ifs at hl₁'
      obtain rfl := Option.some.inj hl₁'
      rcases Leaves.del_perm l (.chunkinfo c) with ⟨x, hx, hh, hperm⟩ | ⟨hno, -⟩
      · cases x with
        | dentry d =>
          rw [Leaves.hits, Bool.and_eq_true] at hh
          exact absurd hh.1 (by simp [Key.eqv_iff, Meta.key, MetaType.val])
        | fattr f =>
          rw [Leaves.hits, Bool.and_eq_true] at hh
          exact absurd hh.1 (by simp [Key.eqv_iff, Meta.key, MetaType.val])
        | chunkinfo x =>
          exact ⟨x, (hits_chunk_iff (hc c List.mem_cons_self) (hne x hx)).mp hh,
            hperm.filterMap Meta.chunkinfo?⟩
      · rw [hno _ (mem_chunks.mp hc')] at hhit
        exact absurd hhit Bool.false_ne_true
    obtain ⟨x, hx, hperm⟩ := hperm
    have hs' : (cs.map MetaChunkInfo.place).Subperm ((chunks l₁).map MetaChunkInfo.place) := by
      have := hs.trans (hperm.map MetaChunkInfo.place).subperm
      rw [List.map_cons, List.map_cons, hx] at this
      exact (List.subperm_cons _).mp this
    obtain ⟨l', hl'⟩ := deleteChunks_isSome (fun y hy => hp y (Leaves.delOk_subset hl₁ hy))
      (fun y hy => hc y (List.mem_cons_of_mem _ hy)) hs'
    refine ⟨l', ?_⟩
    simp only [deleteChunks, List.foldlM_cons, Option.bind_eq_bind, hl₁, Option.bind_some]
    exact hl'

theorem dropChunks_isSome (hp : ∀ x ∈ l, x.key.Plain) (fa : MetaFattr) :
    ∃ l', dropChunks l fa (getalloc l fid) = some l' := by
  unfold dropChunks
  split_ifs
  · refine deleteChunks_isSome hp (fun c hc => ?_) ?_
    · rw [getalloc_eq] at hc
      exact hp _ (mem_chunks.mp (List.mem_filter.mp hc).1)
    · rw [getalloc_eq]
      exact (List.filter_sublist.map _).subperm
  · exact ⟨l, rfl⟩

end Kfs
