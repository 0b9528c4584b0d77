import Kfs.Disk.Replay
import Kfs.Fs.Succeed
import Kfs.Replay.Same

/-!
# Doing an operation again

An operation that succeeded on one tree succeeds on a tree that looks the same, and the results look the same
again. What it has looked up must be `Shown`: the same entry on both sides, and visible.

* `Twin`: `Same`, with both sequences ordered;
* `Shown`: a place of the name space that both trees show;
* `removed_twin`, `mkdirAt_twin`, `rmdir_twin`, `relink_twin`, `link_twin`: the name space;
* `redoAllocate_twin`, `truncate_twin`: chunks.
-/

namespace Kfs

variable {rep : Bool} {O H : Finset ℤ} {l l' l₁ l₁' : List Meta} {m m' : Meta} {env env' : Env}
  {dir fid : ℤ} {name : Str}

/-- Ordered sequences that look the same. -/
structure Twin (rep : Bool) (O H : Finset ℤ) (l l' : List Meta) : Prop where
  same : Same rep O H l l'
  ord : Ordered (l.map Meta.key)
  ord' : Ordered (l'.map Meta.key)

/-! ## Single items -/

/-- Every entry of that name is visible. -/
def Clear (O H : Finset ℤ) (l : List Meta) (dir : ℤ) (name : Str) : Prop :=
  ∀ e, .dentry e ∈ l → e.dir = dir → e.name = name → e.dir ∉ O ∧ e.id ∉ H

theorem Clear.mono (h : Clear O H l dir name) (hl : l₁ ⊆ l) : Clear O H l₁ dir name :=
  fun e he => h e (hl he)

theorem Clear.empty (l : List Meta) (dir : ℤ) (name : Str) : Clear ∅ ∅ l dir name :=
  fun _ _ _ _ => ⟨Finset.notMem_empty _, Finset.notMem_empty _⟩

theorem Clear.hits (h : Clear O H l dir name) {id : ℤ} {x : Meta} (hx : x ∈ l)
    (hh : Leaves.hits (.dentry ⟨dir, name, id⟩) x = true) : visible O H x = true := by
  rw [Leaves.hits, Bool.and_eq_true] at hh
  cases x with
  | dentry e =>
    obtain ⟨hk, hn⟩ := hh
    rw [Key.eqv_comm] at hk
    obtain ⟨d, hd, hdir⟩ := (eqv_dentry _ _).mp hk
    obtain rfl := Meta.dentry.inj hd
    exact decide_eq_true (h _ hx hdir (by simpa [Meta.matchItem] using hn))
  | fattr f => exact absurd hh.2 (by simp [Meta.matchItem])
  | chunkinfo c => exact absurd hh.2 (by simp [Meta.matchItem])

theorem hits_fattr_id {f : MetaFattr} {x : Meta} (h : Leaves.hits (.fattr f) x = true) :
    ∃ g, x = .fattr g ∧ g.id = f.id := by
  rw [Leaves.hits, Bool.and_eq_true, Key.eqv_comm] at h
  exact (eqv_fattr x f.id).mp h.1

theorem hits_chunk_id {c : MetaChunkInfo} {x : Meta} (h : Leaves.hits (.chunkinfo c) x = true) :
    ∃ d, x = .chunkinfo d ∧ d.id = c.id := by
  rw [Leaves.hits, Bool.and_eq_true, Key.eqv_comm] at h
  obtain ⟨d, hx, hd, -⟩ := (eqv_chunk x c.id c.offset).mp h.1
  exact ⟨d, hx, hd⟩

namespace Twin

theorem insert (h : Twin rep O H l l') (hm : m.core rep = m'.core rep) (hp : m.key.Plain) :
    Twin rep O H (Leaves.insert l m) (Leaves.insert l' m') where
  same := h.same.insert h.ord h.ord' hm
  ord := Leaves.ordered_insert h.ord hp
  ord' := Leaves.ordered_insert h.ord' (by rwa [← @Meta.core_key rep m', ← hm, Meta.core_key])

theorem delOk (h : Twin rep O H l l') (hhits : ∀ x, Leaves.hits m x = Leaves.hits m' x)
    (hv : ∀ x ∈ l, Leaves.hits m x = true → visible O H x = true)
    (hv' : ∀ x ∈ l', Leaves.hits m x = true → visible O H x = true) (hd : Leaves.delOk l m = some l₁) :
    ∃ l₁', Leaves.delOk l' m' = some l₁' ∧ Twin rep O H l₁ l₁' := by
  obtain ⟨l₁', hd', hs⟩ := h.same.delOk hhits hv hv' hd
  have hord : ∀ {l l₁ m}, Leaves.delOk l m = some l₁ → Ordered (l.map Meta.key) →
      Ordered (l₁.map Meta.key) := fun hd ho =>
    (Edits.refl (I := Meta.NotChunk)).delOk hd |>.ordered (fun _ hm => hm.plain) ho
  exact ⟨l₁', hd', hs, hord hd h.ord, hord hd' h.ord'⟩

theorem del_dentry (h : Twin rep O H l l') (hc : Clear O H l dir name) (hc' : Clear O H l' dir name)
    {id : ℤ} (id' : ℤ) (hd : Leaves.delOk l (.dentry ⟨dir, name, id⟩) = some l₁) :
    ∃ l₁', Leaves.delOk l' (.dentry ⟨dir, name, id'⟩) = some l₁' ∧ Twin rep O H l₁ l₁' :=
  h.delOk (fun x => by cases x <;> rfl) (fun _ hx hh => hc.hits hx hh) (fun _ hx hh => hc'.hits hx hh) hd

theorem del_fattr (h : Twin rep O H l l') {f f' : MetaFattr} (hf : f.id ∉ H) (he : f'.id = f.id)
    (hd : Leaves.delOk l (.fattr f) = some l₁) :
    ∃ l₁', Leaves.delOk l' (.fattr f') = some l₁' ∧ Twin rep O H l₁ l₁' := by
  have hv : ∀ x, Leaves.hits (.fattr f) x = true → visible O H x = true := by
    intro x hx
    obtain ⟨g, rfl, hg⟩ := hits_fattr_id hx
    simpa [visible, hg] using hf
  refine h.delOk (fun x => ?_) (fun x _ => hv x) (fun x _ => hv x) hd
  cases x <;> simp only [Leaves.hits, Meta.key, Meta.matchItem, Meta.id, he] <;> rfl

theorem del_chunk (h : Twin rep O H l l') {c : MetaChunkInfo} (hc : c.id ∉ H)
    (hd : Leaves.delOk l (.chunkinfo c) = some l₁) :
    ∃ l₁', Leaves.delOk l' (.chunkinfo c) = some l₁' ∧ Twin rep O H l₁ l₁' := by
  have hv : ∀ x, Leaves.hits (.chunkinfo c) x = true → visible O H x = true := by
    intro x hx
    obtain ⟨d, rfl, hd⟩ := hits_chunk_id hx
    simpa [visible, hd] using hc
  exact h.delOk (fun _ => rfl) (fun x _ => hv x) (fun x _ => hv x) hd

theorem update {k : Key} {g g' : Meta → Meta} (h : Twin rep O H l l')
    (hv : ∀ x ∈ l, x.key.eqv k = true → visible O H x = true ∧ visible O H (g x) = true)
    (hv' : ∀ x ∈ l', x.key.eqv k = true → visible O H x = true ∧ visible O H (g' x) = true)
    (hk : ∀ x ∈ l, x.key.eqv k = true → (g x).key = x.key)
    (hk' : ∀ x ∈ l', x.key.eqv k = true → (g' x).key = x.key)
    (hg : ∀ x x' : Meta, x.key.eqv k = true → x.core rep = x'.core rep → (g x).core rep = (g' x').core rep) :
    Twin rep O H (Leaves.update l k g) (Leaves.update l' k g') where
  same := h.same.update hv hv' hg
  ord := by rw [update_map_key hk]; exact h.ord
  ord' := by rw [update_map_key hk']; exact h.ord'

theorem setFattr (h : Twin rep O H l l') (hi : fid ∉ H) {f g : MetaFattr} (hf : f.id = fid)
    (he : f.core rep = g.core rep) : Twin rep O H (setFattr l fid f) (setFattr l' fid g) := by
  have hf' : g.id = fid := by
    have := congrArg MetaFattr.id he
    simp only [MetaFattr.core] at this
    rw [← this, hf]
  have hv : ∀ x : Meta, x.key.eqv ⟨.fattr, fid, 0⟩ = true → visible O H x = true := by
    intro x hx
    obtain ⟨g, rfl, hg⟩ := (eqv_fattr x fid).mp hx
    simpa [visible, hg] using hi
  have hkey : ∀ (f : MetaFattr), f.id = fid → ∀ x : Meta, x.key.eqv ⟨.fattr, fid, 0⟩ = true →
      (Meta.fattr f).key = x.key := by
    intro f hf x hx
    obtain ⟨g, rfl, hg⟩ := (eqv_fattr x fid).mp hx
    simp [Meta.key, hf, hg]
  refine h.update (fun x _ hx => ⟨hv x hx, by simpa [visible, hf] using hi⟩)
    (fun x _ hx => ⟨hv x hx, by simpa [visible, hf'] using hi⟩) (fun x _ => hkey f hf x)
    (fun x _ => hkey g hf' x) fun _ _ _ _ => ?_
  simp [Meta.core, he]

theorem plain (h : Twin rep O H l l') : ∀ x ∈ l, x.key.Plain := fun _ hx =>
  h.ord.2 _ (List.mem_map_of_mem hx)

theorem plain' (h : Twin rep O H l l') : ∀ x ∈ l', x.key.Plain := fun _ hx =>
  h.ord'.2 _ (List.mem_map_of_mem hx)

end Twin

/-! ## Lookups -/

/-- A place of the name space that both trees show. -/
structure Shown (O H : Finset ℤ) (l l' : List Meta) (dir : ℤ) (name : Str) : Prop where
  eq : getDentry l' dir name = getDentry l dir name
  clear : Clear O H l dir name
  clear' : Clear O H l' dir name

theorem Shown.not_mem (h : Shown O H l l' dir name) {d : MetaDentry}
    (hd : getDentry l dir name = some (some d)) : d.id ∉ H := by
  obtain ⟨hm, hdir, hn⟩ := getDentry_some hd
  exact (h.clear d hm hdir hn).2

theorem lookup_shown (h : Twin rep O H l l') (hs : Shown O H l l' dir name) {fa : MetaFattr}
    (hl : lookup l dir name = some (some fa)) : fa.id ∉ H ∧
      ∃ fa', lookup l' dir name = some (some fa') ∧ fa'.core rep = fa.core rep := by
  obtain ⟨d, hd, hf⟩ := lookup_some hl
  have hH := hs.not_mem hd
  obtain ⟨fa', hf', he⟩ := h.same.getFattr_some hH hf
  exact ⟨(getFattr_some hf).2 ▸ hH, fa', lookup_eq (hs.eq.trans hd) hf', he⟩

theorem lookup_shown_none (hs : Shown O H l l' dir name) (hl : lookup l dir name = some none) :
    lookup l' dir name = some none :=
  lookup_eq_none (hs.eq.trans (lookup_none hl))

/-! ## The name space -/

theorem deleteChunks_twin : ∀ {cs : List MetaChunkInfo} {l l' l₁ : List Meta}, Twin rep O H l l' →
    (∀ c ∈ cs, c.id ∉ H) → deleteChunks l cs = some l₁ →
    ∃ l₁', deleteChunks l' cs = some l₁' ∧ Twin rep O H l₁ l₁'
  | [], l, l', l₁, h, _, hd => by
    obtain rfl : l = l₁ := by simpa [deleteChunks] using hd
    exact ⟨l', rfl, h⟩
  | c :: cs, l, l', l₁, h, hc, hd => by
    simp only [deleteChunks, List.foldlM_cons, Option.bind_eq_bind, Option.bind_eq_some_iff] at hd ⊢
    obtain ⟨l₂, h₂, hd⟩ := hd
    obtain ⟨l₂', h₂', ht⟩ := h.del_chunk (hc c List.mem_cons_self) h₂
    obtain ⟨l₁', hd', ht'⟩ := deleteChunks_twin ht (fun c' hc' => hc c' (List.mem_cons_of_mem _ hc')) hd
    exact ⟨l₁', ⟨l₂', h₂', hd'⟩, ht'⟩

theorem mem_getalloc_id {c : MetaChunkInfo} (h : c ∈ getalloc l fid) : c.id = fid := by
  rw [getalloc_eq] at h
  simpa using (List.mem_filter.mp h).2

theorem core_fields {f f' : MetaFattr} (h : f'.core rep = f.core rep) :
    f'.id = f.id ∧ f'.type = f.type ∧ f'.chunkcount = f.chunkcount :=
  ⟨(MetaFattr.core_eq_iff.mp h).1, (MetaFattr.core_eq_iff.mp h).2.1, (MetaFattr.core_eq_iff.mp h).2.2.2⟩

theorem unlink_twin (h : Twin rep O H l l') (hc : Clear O H l dir name) (hc' : Clear O H l' dir name)
    {fa fa' : MetaFattr} (hf : fa.id ∉ H) (he : fa'.id = fa.id)
    (hu : unlink l dir name fa false = some l₁) :
    ∃ l₁', unlink l' dir name fa' false = some l₁' ∧ Twin rep O H l₁ l₁' := by
  obtain ⟨l₂, h₁, h₂⟩ := unlink_iff.mp hu
  obtain ⟨l₂', h₁', ht⟩ := h.del_dentry hc hc' fa'.id h₁
  obtain ⟨l₁', h₂', ht'⟩ := ht.del_fattr hf he h₂
  exact ⟨l₁', unlink_iff.mpr ⟨l₂', h₁', h₂'⟩, ht'⟩

/-- **A file is removed again.** -/
theorem removed_twin {L R : Fs} {fuel : ℕ} (h : Twin rep O H L.leaves R.leaves)
    (hs : Shown O H L.leaves R.leaves dir name) (hidle : ∀ c, env'.leased c = false) {fa : MetaFattr}
    (hl : lookup L.leaves dir name = some (some fa)) (ht : fa.type = .file)
    (hcc : fa.chunkcount > 0 → fa.chunkcount = (getalloc L.leaves fa.id).length)
    (h₁ : dropChunks L.leaves fa (getalloc L.leaves fa.id) = some l₁)
    (h₂ : unlink l₁ dir name fa false = some l) :
    ∃ l', removeF (fuel + 1) env' R dir name = some (0, { R with leaves := l' }) ∧ Twin rep O H l l' := by
  obtain ⟨hH, fa', hl', he⟩ := lookup_shown h hs hl
  obtain ⟨hid, hty, hct⟩ := core_fields he
  have hga : getalloc R.leaves fa'.id = getalloc L.leaves fa.id := by
    rw [hid]
    exact (h.same.getalloc hH).symm
  have hdrop : ∃ l₁', dropChunks R.leaves fa' (getalloc R.leaves fa'.id) = some l₁' ∧
      Twin rep O H l₁ l₁' := by
    rw [hga]
    unfold dropChunks at h₁ ⊢
    rw [hct]
    split_ifs at h₁ ⊢
    · exact deleteChunks_twin h (fun c hc => mem_getalloc_id hc ▸ hH) h₁
    · obtain rfl := Option.some.inj h₁
      exact ⟨_, rfl, h⟩
  obtain ⟨l₁', h₁', htw⟩ := hdrop
  obtain ⟨l', h₂', htw'⟩ := unlink_twin htw (hs.clear.mono (dropChunks_subset h₁))
    (hs.clear'.mono (dropChunks_subset h₁')) hH hid h₂
  exact ⟨l', removeF_run hl' (hty.trans ht) (by rw [hga, hct]; exact hcc) (fun c _ => hidle c.chunkId) h₁' h₂',
    htw'⟩

theorem core_new (t : FileType) (id n : ℤ) :
    (MetaFattr.new env t id n).core rep = (MetaFattr.new env' t id n).core rep := rfl

theorem Twin.insert_new (h : Twin rep O H l l') (t : FileType) (id n : ℤ) :
    Twin rep O H (Leaves.insert l (.fattr (MetaFattr.new env t id n)))
      (Leaves.insert l' (.fattr (MetaFattr.new env' t id n))) :=
  h.insert (congrArg Meta.fattr (core_new t id n)) (Meta.NotChunk.plain trivial)

theorem Twin.insert_dentry (h : Twin rep O H l l') (d : MetaDentry) :
    Twin rep O H (Leaves.insert l (.dentry d)) (Leaves.insert l' (.dentry d)) :=
  h.insert rfl (Meta.NotChunk.plain trivial)

/-- **A directory is made again.** -/
theorem mkdirAt_twin {L R : Fs} (h : Twin rep O H L.leaves R.leaves) (dname : Str) (id : ℤ) :
    Twin rep O H (Fs.mkdirAt env L dir dname id).leaves (Fs.mkdirAt env' R dir dname id).leaves :=
  (((h.insert_dentry ⟨dir, dname, id⟩).insert_new .dir id 1).insert_dentry ⟨id, ['.'], id⟩).insert_dentry
    ⟨id, ['.', '.'], dir⟩

/-- **A directory is removed again.** -/
theorem rmdir_twin {L R : Fs} {dname : Str} {fa : MetaFattr} (h : Twin rep O H L.leaves R.leaves)
    (hs : Shown O H L.leaves R.leaves dir dname)
    (hc : ∀ n, n = ['.'] ∨ n = ['.', '.'] → Clear O H L.leaves fa.id n ∧ Clear O H R.leaves fa.id n)
    (hem : emptydir R.leaves fa.id = emptydir L.leaves fa.id) (hr : RmdirDone L dir dname fa l) :
    ∃ l' fa', RmdirDone R dir dname fa' l' ∧ fa'.core rep = fa.core rep ∧ Twin rep O H l l' := by
  obtain ⟨hl, hty, hnd, hdot, he, l₁, l₂, l₃, h₁, h₂, h₃, h₄⟩ := hr
  obtain ⟨hH, fa', hl', hcore⟩ := lookup_shown h hs hl
  obtain ⟨hid, hty', -⟩ := core_fields hcore
  obtain ⟨l₁', h₁', ht₁⟩ := h.del_dentry (hc _ (Or.inl rfl)).1 (hc _ (Or.inl rfl)).2 fa'.id h₁
  have hsub₁ := Leaves.delOk_subset h₁
  have hsub₁' := Leaves.delOk_subset h₁'
  obtain ⟨l₂', h₂', ht₂⟩ := ht₁.del_dentry ((hc _ (Or.inr rfl)).1.mono hsub₁)
    ((hc _ (Or.inr rfl)).2.mono hsub₁') fa'.id h₂
  have hsub₂ : l₂ ⊆ L.leaves := fun x hx => hsub₁ (Leaves.delOk_subset h₂ hx)
  have hsub₂' : l₂' ⊆ R.leaves := fun x hx => hsub₁' (Leaves.delOk_subset h₂' hx)
  obtain ⟨l₃', h₃', ht₃⟩ := ht₂.del_dentry (hs.clear.mono hsub₂) (hs.clear'.mono hsub₂') fa'.id h₃
  obtain ⟨l', h₄', ht₄⟩ := ht₃.del_fattr hH hid h₄
  rw [← hid] at h₁' h₂' hem
  exact ⟨l', fa', ⟨hl', hty'.trans hty, hnd, hdot, hem.trans (hid ▸ he), l₁', l₂', l₃', h₁', h₂', h₃', h₄'⟩,
    hcore, ht₄⟩

/-- **The source of a renaming is linked again.** -/
theorem relink_twin (env' : Env) {p p' : RenamePlan} (h : Twin rep O H l l') (hsrc : p'.src = p.src)
    (hddir : p'.ddir = p.ddir) (hdname : p'.dname = p.dname) (hcore : p'.sfattr.core rep = p.sfattr.core rep)
    (hc : Clear O H l p.src.dir p.src.name) (hc' : Clear O H l' p.src.dir p.src.name)
    (hdd : p.sfattr.type = .dir → Clear O H l p.src.id ['.', '.'] ∧ Clear O H l' p.src.id ['.', '.'])
    (hmem : p.sfattr.type = .dir → .fattr p'.sfattr ∈ l') (hr : relink env l p = some l₁) :
    ∃ l₁', relink env' l' p' = some l₁' ∧ Twin rep O H l₁ l₁' := by
  obtain ⟨hs, hr⟩ := relink_spec hr
  obtain ⟨hid, hty, -⟩ := core_fields hcore
  have hs' : .dentry p'.src ∈ l' := by
    have hv : visible O H (.dentry p.src) = true := decide_eq_true (hc p.src hs rfl rfl)
    have hm : p.src ∈ (dentries l').filter fun d => decide (d.dir ∉ O ∧ d.id ∉ H) := by
      rw [← h.same.dentries]
      exact List.mem_filter.mpr ⟨mem_dentries.mpr hs, hv⟩
    rw [hsrc]
    exact mem_dentries.mp (List.mem_filter.mp hm).1
  by_cases hdir : p.sfattr.type = .dir
  · rw [if_pos hdir] at hr
    obtain ⟨-, l₂, l₃, h₁, h₂, rfl⟩ := hr
    obtain ⟨l₂', h₁', ht₁⟩ := h.del_dentry (hdd hdir).1 (hdd hdir).2 p'.sfattr.id h₁
    obtain ⟨l₃', h₂', ht₂⟩ := ht₁.del_dentry (hc.mono (Leaves.delOk_subset h₁))
      (hc'.mono (Leaves.delOk_subset h₁')) p.src.id h₂
    refine ⟨_, relink_run hs' ?_, (ht₂.insert_dentry ⟨p.ddir, p.dname, p.src.id⟩).insert_dentry
      ⟨p.src.id, ['.', '.'], p.ddir⟩⟩
    rw [if_pos (hty.trans hdir), hsrc, hddir, hdname]
    exact ⟨hmem hdir, l₂', l₃', h₁', h₂', rfl⟩
  · rw [if_neg hdir] at hr
    obtain ⟨l₂, h₂, rfl⟩ := hr
    obtain ⟨l₂', h₂', ht₂⟩ := h.del_dentry hc hc' p.src.id h₂
    refine ⟨_, relink_run hs' ?_, ht₂.insert_dentry ⟨p.ddir, p.dname, p.src.id⟩⟩
    rw [if_neg (by rwa [hty]), hsrc, hddir, hdname]
    exact ⟨l₂', h₂', rfl⟩

/-- **A file is linked again.** -/
theorem link_twin (env' : Env) {id n : ℤ} {t : FileType} (h : Twin rep O H l l')
    (hk : link env l dir name t id n = some l₁) :
    ∃ l₁', link env' l' dir name t id n = some l₁' ∧ Twin rep O H l₁ l₁' := by
  obtain ⟨hn, rfl⟩ := link_spec hk
  unfold link
  rw [if_pos hn]
  dsimp only
  split_ifs with hd
  · exact ⟨_, rfl, (h.insert_dentry ⟨dir, name, id⟩).insert_new t id n⟩
  · exact ⟨_, rfl, h.insert_dentry ⟨dir, name, id⟩⟩

/-! ## Chunks -/

theorem linkChunk_twin (env' : Env) (h : Twin rep O H l l') {c : MetaChunkInfo} (hi : c.id ∉ H) (ho : c.offset ≠ -1) :
    Twin rep O H (linkChunk env l c) (linkChunk env' l' c) := by
  have hv : ∀ (env : Env) (x : Meta), x.key.eqv ⟨.fattr, c.id, 0⟩ = true →
      (visible O H x = true ∧ visible O H (Meta.addChunk env x) = true) ∧
        (Meta.addChunk env x).key = x.key := by
    intro env x hx
    obtain ⟨g, rfl, hg⟩ := (eqv_fattr x c.id).mp hx
    exact ⟨⟨decide_eq_true (hg ▸ hi), decide_eq_true (hg ▸ hi)⟩, rfl⟩
  have hins : Twin rep O H (Leaves.insert l (.chunkinfo c)) (Leaves.insert l' (.chunkinfo c)) :=
    h.insert rfl ho
  refine hins.update (fun x _ hx => (hv env x hx).1) (fun x _ hx => (hv env' x hx).1)
    (fun x _ hx => (hv env x hx).2) (fun x _ hx => (hv env' x hx).2) fun x x' hx he => ?_
  obtain ⟨f, rfl, -⟩ := (eqv_fattr x c.id).mp hx
  cases x' with
  | dentry d => simp [Meta.core] at he
  | chunkinfo c => simp [Meta.core] at he
  | fattr f' =>
    simp only [Meta.core, Meta.fattr.injEq, MetaFattr.core_eq_iff, Meta.addChunk,
      MetaFattr.addChunk] at he ⊢
    exact ⟨he.1, he.2.1, he.2.2.1, by rw [he.2.2.2]⟩

theorem setChunk_twin (h : Twin rep O H l l') (hi : fid ∉ H) {offset : ℤ} (ho : offset ≠ -1)
    {c : MetaChunkInfo} (hid : c.id = fid) (hc : c.offset = offset) :
    Twin rep O H (setChunk l fid offset c) (setChunk l' fid offset c) := by
  have hv : ∀ x : Meta, x.key.Plain → x.key.eqv ⟨.chunkinfo, fid, offset⟩ = true →
      (visible O H x = true ∧ visible O H (.chunkinfo c) = true) ∧ (Meta.chunkinfo c).key = x.key := by
    intro x hp hx
    obtain ⟨d, rfl, hd, hoff⟩ := (eqv_chunk x fid offset).mp hx
    have hne : d.offset ≠ -1 := hp
    refine ⟨⟨decide_eq_true (hd ▸ hi), decide_eq_true (hid ▸ hi)⟩, ?_⟩
    simp only [Meta.key, hid, hd, hc, Key.mk.injEq, true_and]
    omega
  exact h.update (fun x hm hx => (hv x (h.plain x hm) hx).1) (fun x hm hx => (hv x (h.plain' x hm) hx).1)
    (fun x hm hx => (hv x (h.plain x hm) hx).2) (fun x hm hx => (hv x (h.plain' x hm) hx).2)
    fun _ _ _ _ => rfl

/-- A chunk is assigned again. -/
theorem assignChunkId_twin (env' : Env) {L L' R : Fs} {offset cid v : ℤ} (h : Twin rep O H L.leaves R.leaves)
    (hi : fid ∉ H) (ho : offset ≠ -1) (ha : assignChunkId env L fid offset cid v = (0, L')) :
    ∃ l', assignChunkId env' R fid offset cid v = (0, { R with leaves := l' }) ∧
      Twin rep O H L'.leaves l' := by
  rcases assignChunkId_spec ha with
    ⟨-, h0, -⟩ | ⟨fa, hf, ⟨c, -, -, h0, -⟩ | ⟨c, hc, hv, -, rfl⟩ | ⟨hc, -, rfl⟩⟩
  · exact absurd h0 (by decide)
  · exact absurd h0 (by decide)
  · obtain ⟨fa', hf', -⟩ := h.same.getFattr_some hi hf
    obtain ⟨-, hid, hoff⟩ := getChunk_spec h.plain (chunkStartOffset_ne offset) hc
    have hc' : getChunk R.leaves fid (chunkStartOffset offset) = some c :=
      (h.same.getChunk hi _).symm.trans hc
    refine ⟨_, ?_, setChunk_twin h hi (chunkStartOffset_ne offset) (c := { c with chunkVersion := v }) hid hoff⟩
    simp only [assignChunkId, hf', hc', hv, if_false]
    rfl
  · obtain ⟨fa', hf', -⟩ := h.same.getFattr_some hi hf
    have hc' : getChunk R.leaves fid (chunkStartOffset offset) = none :=
      (h.same.getChunk hi _).symm.trans hc
    refine ⟨_, ?_, linkChunk_twin env' h (c := ⟨fid, offset, cid, v⟩) hi ho⟩
    simp only [assignChunkId, hf', hc']
    rfl

/-- What a record leaves of the seeds: the larger of the old one and the id of the chunk. -/
theorem redoAssign_eq {R R' : Fs} {offset cid v : ℤ}
    (ha : assignChunkId env' R fid offset cid v = (0, R')) (hs : R'.chunkID = R.chunkID) :
    redoAssign env' R fid offset cid v = some (true, { R' with chunkID := max R.chunkID cid }) := by
  unfold redoAssign
  simp only [ha, if_true]
  rw [hs]
  by_cases hlt : cid > R.chunkID
  · rw [if_pos hlt, updateSeed, if_neg (by omega), max_eq_right hlt.le]
    rfl
  · rw [if_neg hlt, max_eq_left (by omega), ← hs]

/-- **An allocation is redone** when the chunk that is there has the id of the record. -/
theorem redoAllocate_twin (env' : Env) {L L' R : Fs} {offset cid v : ℤ} (h : Twin rep O H L.leaves R.leaves)
    (hi : fid ∉ H) (ho : offset ≠ -1) (hal : offset.tmod CHUNKSIZE = 0) (hcid : cid ≠ 0)
    (hsame : ∀ c, getChunk L.leaves fid (chunkStartOffset offset) = some c → c.chunkId = cid)
    (ha : assignChunkId env L fid offset cid v = (0, L')) :
    ∃ l', redoAllocate env' R fid offset cid v =
        some (true, { R with leaves := l', chunkID := max R.chunkID cid }) ∧
      Twin rep O H L'.leaves l' := by
  obtain ⟨l', ha', ht⟩ := assignChunkId_twin env' h hi ho ha
  refine ⟨l', ?_, ht⟩
  have hf' : ∃ fa', getFattr R.leaves fid = some fa' := by
    rcases assignChunkId_spec ha with ⟨-, h0, -⟩ | ⟨fa, hf, -⟩
    · exact absurd h0 (by decide)
    · obtain ⟨fa', hf', -⟩ := h.same.getFattr_some hi hf
      exact ⟨fa', hf'⟩
  obtain ⟨fa', hf'⟩ := hf'
  have hg := h.same.getChunk hi (chunkStartOffset offset)
  unfold redoAllocate
  rw [hf']
  rcases hc : getChunk L.leaves fid (chunkStartOffset offset) with - | c
  · rw [hc] at hg
    have hid : allocateChunkId R fid offset cid false = some (0, cid, 0, R) := by
      simp [allocateChunkId, hf', hal, ← hg, hcid]
    have h0 : ¬ ((0 : ℤ) = -EEXIST) := by decide
    simp only [hid, h0, false_and, false_or, if_false, if_true]
    exact redoAssign_eq ha' rfl
  · rw [hc] at hg
    have hcc := hsame c hc
    have hid : allocateChunkId R fid offset cid false = some (-EEXIST, c.chunkId, c.chunkVersion, R) := by
      simp [allocateChunkId, hf', hal, ← hg]
    have hne : c.chunkVersion ≠ v := by
      rcases assignChunkId_spec ha with
        ⟨-, h0, -⟩ | ⟨fa, hf, ⟨d, -, -, h0, -⟩ | ⟨d, hd, hv, -, -⟩ | ⟨hn, -, -⟩⟩
      · exact absurd h0 (by decide)
      · exact absurd h0 (by decide)
      · rw [hc] at hd
        exact Option.some.inj hd ▸ hv
      · rw [hc] at hn
        simp at hn
    simp only [hid, hne, hcc, and_false, true_or, if_false, if_true]
    exact redoAssign_eq ha' rfl

/-- A record of a chunk as it is in the tree is passed over. -/
theorem redoAllocate_known {R : Fs} {offset : ℤ} {c : MetaChunkInfo} {fa : MetaFattr}
    (hf : getFattr R.leaves fid = some fa) (hal : offset.tmod CHUNKSIZE = 0)
    (hc : getChunk R.leaves fid (chunkStartOffset offset) = some c) :
    redoAllocate env' R fid offset c.chunkId c.chunkVersion = some (true, R) := by
  have hid : allocateChunkId R fid offset c.chunkId false = some (-EEXIST, c.chunkId, c.chunkVersion, R) := by
    simp [allocateChunkId, hf, hal, hc]
  simp [redoAllocate, hf, hid]

/-- **A file is truncated again.** -/
theorem truncate_twin (env' : Env) {L L' R : Fs} {offset a : ℤ} (h : Twin rep O H L.leaves R.leaves) (hi : fid ∉ H)
    (ht : truncate env L fid offset = some (0, a, L')) :
    ∃ l' a', truncate env' R fid offset = some (0, a', { R with leaves := l' }) ∧
      Twin rep O H L'.leaves l' := by
  rcases truncate_spec ht with ⟨h0, -⟩ | ⟨fa, hf, hty, hcc, ⟨-, h0, -⟩ | ⟨hat, -, l₁, hl, rfl⟩⟩
  · exact absurd h0 (lt_irrefl _)
  · exact absurd h0 (by decide)
  obtain ⟨fa', hf', hcore⟩ := h.same.getFattr_some hi hf
  obtain ⟨hid, hty', hct⟩ := core_fields hcore
  have hfid : fa.id = fid := (getFattr_some hf).2
  have hga : getalloc R.leaves fa'.id = getalloc L.leaves fa.id := by
    rw [hid, hfid]
    exact (h.same.getalloc hi).symm
  have hdead : ∀ c ∈ deadChunks offset (getalloc L.leaves fa.id), c.id ∉ H := by
    intro c hc
    have hm : c ∈ getalloc L.leaves fa.id := by
      unfold deadChunks at hc
      split at hc
      · simp at hc
      · next m ms he =>
        have hmem : c ∈ m :: ms := by
          split_ifs at hc
          · exact List.mem_cons_of_mem _ hc
          · exact hc
        exact List.mem_of_mem_drop (he ▸ hmem)
    exact mem_getalloc_id hm ▸ hfid ▸ hi
  obtain ⟨l₁', hl', htw⟩ := deleteChunks_twin h hdead hl
  refine ⟨_, 0, ?_, htw.setFattr hi (f := { fa with
    filesize := -1, mtime := env.now,
    chunkcount := fa.chunkcount - (deadChunks offset (getalloc L.leaves fa.id)).length }) hfid (g := { fa' with
    filesize := -1, mtime := env'.now,
    chunkcount := fa'.chunkcount - (deadChunks offset (getalloc R.leaves fa'.id)).length }) ?_⟩
  · unfold truncate
    rw [← hga] at hl' hat hcc
    unfold hasChunkAt at hat
    unfold deadChunks at hl' ⊢
    simp only [hf', hty', hty, hct, hcc, ne_eq, not_true_eq_false, if_false]
    rcases hd : (getalloc R.leaves fa'.id).drop (Lib.lowerBound
      (fun c => decide (c.offset < chunkStartOffset offset)) (getalloc R.leaves fa'.id)) with - | ⟨m, ms⟩
    · simp [hd] at hat
    · simp only [hd, decide_eq_true_eq] at hat hl' ⊢
      rw [if_neg (not_not.mpr hat), hl']
      rfl
  · rw [MetaFattr.core_eq_iff] at hcore ⊢
    exact ⟨hcore.1.symm, hcore.2.1.symm, fun hr => (hcore.2.2.1 hr).symm, by simp only; rw [hga, hct]⟩

end Kfs
