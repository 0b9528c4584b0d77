import Kfs.Fs.Keep

/-!
# The chunk table

* `ChunkTable F C`: the attributes `F` and the chunks `C` agree; the changes that keep it;
* `deleteChunks_perm`, `update_perm`: the updates of the sequence up to order;
* `KeepsChunks`: what an operation of the name space does to the chunks; `removeF_chunks`, …
-/

namespace Kfs

variable {F F' R : List MetaFattr} {C C' : List MetaChunkInfo} {x y : MetaFattr}

/-- The attributes and the chunks agree. -/
structure ChunkTable (F : List MetaFattr) (C : List MetaChunkInfo) : Prop where
  count : ∀ f ∈ F, f.chunkcount = C.countP fun c => decide (c.id = f.id)
  place : (C.map fun c => (c.id, c.offset)).Nodup
  aligned : ∀ c ∈ C, CHUNKSIZE ∣ c.offset
  owner : ∀ c ∈ C, ∃ f ∈ F, f.id = c.id ∧ f.type = .file
  one : ((F.filter fun f => decide (f.type = .file)).map MetaFattr.id).Nodup
  type_eq : ∀ f ∈ F, ∀ g ∈ F, f.id = g.id → f.type = g.type

namespace ChunkTable

theorem perm (h : ChunkTable F C) (hF : List.Perm F F') (hC : List.Perm C C') : ChunkTable F' C' where
  count f hf := by
    rw [h.count f (hF.mem_iff.mpr hf), hC.countP_eq]
  place := (hC.map _).nodup_iff.mp h.place
  aligned c hc := h.aligned c (hC.mem_iff.mpr hc)
  owner c hc := by
    obtain ⟨f, hf, hfc⟩ := h.owner c (hC.mem_iff.mpr hc)
    exact ⟨f, hF.mem_iff.mp hf, hfc⟩
  one := ((hF.filter _).map _).nodup_iff.mp h.one
  type_eq f hf g hg := h.type_eq f (hF.mem_iff.mpr hf) g (hF.mem_iff.mpr hg)

/-- A file has one set of attributes. -/
theorem ne_of_file (h : ChunkTable (x :: R) C) (ht : x.type = .file) {f : MetaFattr} (hf : f ∈ R) :
    f.id ≠ x.id := by
  intro he
  have hft : f.type = .file :=
    (h.type_eq f (List.mem_cons_of_mem _ hf) x List.mem_cons_self he).trans ht
  have := h.one
  rw [List.filter_cons_of_pos (by simpa using ht), List.map_cons, List.nodup_cons] at this
  refine this.1 (List.mem_map.mpr ⟨f, List.mem_filter.mpr ⟨hf, by simpa using hft⟩, he⟩)

/-- Attributes that are no file's come and go. -/
theorem addDir (h : ChunkTable F C) (ht : x.type = .dir) (hc : x.chunkcount = 0)
    (hx : ∀ f ∈ F, f.id = x.id → f.type = .dir) : ChunkTable (x :: F) C where
  count f hf := by
    rcases List.mem_cons.mp hf with rfl | hf
    · rw [hc, eq_comm, Int.natCast_eq_zero, List.countP_eq_zero]
      intro c hcm he
      obtain ⟨g, hg, hgi, hgt⟩ := h.owner c hcm
      rw [hx g hg (hgi.trans (of_decide_eq_true he))] at hgt
      exact absurd hgt (by decide)
    · exact h.count f hf
  place := h.place
  aligned := h.aligned
  owner c hcm := by
    obtain ⟨g, hg, hgc⟩ := h.owner c hcm
    exact ⟨g, List.mem_cons_of_mem _ hg, hgc⟩
  one := by
    rw [List.filter_cons_of_neg (by simp [ht])]
    exact h.one
  type_eq f hf g hg he := by
    rcases List.mem_cons.mp hf with rfl | hf' <;> rcases List.mem_cons.mp hg with rfl | hg'
    · rfl
    · rw [ht, hx g hg' he.symm]
    · rw [ht, hx f hf' he]
    · exact h.type_eq f hf' g hg' he

theorem dropDir (h : ChunkTable (x :: F) C) (ht : x.type = .dir) : ChunkTable F C where
  count f hf := h.count f (List.mem_cons_of_mem _ hf)
  place := h.place
  aligned := h.aligned
  owner c hcm := by
    obtain ⟨g, hg, hgi, hgt⟩ := h.owner c hcm
    rcases List.mem_cons.mp hg with rfl | hg
    · rw [ht] at hgt
      exact absurd hgt (by decide)
    · exact ⟨g, hg, hgi, hgt⟩
  one := by
    have := h.one
    rwa [List.filter_cons_of_neg (by simp [ht])] at this
  type_eq f hf g hg := h.type_eq f (List.mem_cons_of_mem _ hf) g (List.mem_cons_of_mem _ hg)

/-- A new file has no chunks. -/
theorem addFile (h : ChunkTable F C) (ht : x.type = .file) (hc : x.chunkcount = 0)
    (hx : ∀ f ∈ F, f.id ≠ x.id) : ChunkTable (x :: F) C where
  count f hf := by
    rcases List.mem_cons.mp hf with rfl | hf
    · rw [hc, eq_comm, Int.natCast_eq_zero, List.countP_eq_zero]
      intro c hcm he
      obtain ⟨g, hg, hgi, -⟩ := h.owner c hcm
      exact hx g hg (hgi.trans (of_decide_eq_true he))
    · exact h.count f hf
  place := h.place
  aligned := h.aligned
  owner c hcm := by
    obtain ⟨g, hg, hgc⟩ := h.owner c hcm
    exact ⟨g, List.mem_cons_of_mem _ hg, hgc⟩
  one := by
    rw [List.filter_cons_of_pos (by simpa using ht), List.map_cons, List.nodup_cons]
    refine ⟨fun hm => ?_, h.one⟩
    obtain ⟨f, hf, he⟩ := List.mem_map.mp hm
    exact hx f (List.mem_filter.mp hf).1 he
  type_eq f hf g hg he := by
    rcases List.mem_cons.mp hf with rfl | hf' <;> rcases List.mem_cons.mp hg with rfl | hg'
    · rfl
    · exact absurd he.symm (hx g hg')
    · exact absurd he (hx f hf')
    · exact h.type_eq f hf' g hg' he

/-- The attributes of a file are overwritten; its chunks may change at the same time. -/
theorem setFile {D : List MetaChunkInfo} (h : ChunkTable (x :: R) C) (ht : x.type = .file) (hid : y.id = x.id)
    (hty : y.type = .file) (hc : y.chunkcount = D.countP fun c => decide (c.id = x.id))
    (hcount : ∀ id, id ≠ x.id → D.countP (fun c => decide (c.id = id)) = C.countP fun c => decide (c.id = id))
    (hplace : (D.map fun c => (c.id, c.offset)).Nodup) (haligned : ∀ c ∈ D, CHUNKSIZE ∣ c.offset)
    (hown : ∀ c ∈ D, c.id = x.id ∨ c ∈ C) : ChunkTable (y :: R) D where
  count f hf := by
    rcases List.mem_cons.mp hf with rfl | hf
    · rw [hc, hid]
    · rw [h.count f (List.mem_cons_of_mem _ hf), hcount _ (h.ne_of_file ht hf)]
  place := hplace
  aligned := haligned
  owner c hcm := by
    rcases hown c hcm with he | hcm
    · exact ⟨y, List.mem_cons_self, hid.trans he.symm, hty⟩
    · obtain ⟨g, hg, hgi, hgt⟩ := h.owner c hcm
      rcases List.mem_cons.mp hg with rfl | hg
      · exact ⟨y, List.mem_cons_self, hid.trans hgi, hty⟩
      · exact ⟨g, List.mem_cons_of_mem _ hg, hgi, hgt⟩
  one := by
    have := h.one
    rw [List.filter_cons_of_pos (by simpa using ht), List.map_cons] at this
    rw [List.filter_cons_of_pos (by simpa using hty), List.map_cons, hid]
    exact this
  type_eq f hf g hg he := by
    rcases List.mem_cons.mp hf with rfl | hf' <;> rcases List.mem_cons.mp hg with rfl | hg'
    · rfl
    · exact absurd (he.symm.trans hid) (h.ne_of_file ht hg')
    · exact absurd (he.trans hid) (h.ne_of_file ht hf')
    · exact h.type_eq f (List.mem_cons_of_mem _ hf') g (List.mem_cons_of_mem _ hg') he

/-- A file goes with its chunks `D`. -/
theorem dropFile {D : List MetaChunkInfo} (h : ChunkTable (x :: R) C) (ht : x.type = .file)
    (hC : List.Perm C (D ++ C')) (hD : ∀ c ∈ D, c.id = x.id) (hC' : ∀ c ∈ C', c.id ≠ x.id) :
    ChunkTable R C' where
  count f hf := by
    rw [h.count f (List.mem_cons_of_mem _ hf), hC.countP_eq, List.countP_append,
      List.countP_eq_zero.mpr, zero_add]
    intro c hc he
    exact h.ne_of_file ht hf ((of_decide_eq_true he).symm.trans (hD c hc))
  place := by
    have := (hC.map _).nodup_iff.mp h.place
    rw [List.map_append] at this
    exact (List.nodup_append.mp this).2.1
  aligned c hc := h.aligned c (hC.mem_iff.mpr (List.mem_append_right _ hc))
  owner c hc := by
    obtain ⟨g, hg, hgi, hgt⟩ := h.owner c (hC.mem_iff.mpr (List.mem_append_right _ hc))
    rcases List.mem_cons.mp hg with rfl | hg
    · exact absurd hgi.symm (hC' c hc)
    · exact ⟨g, hg, hgi, hgt⟩
  one := by
    have := h.one
    rw [List.filter_cons_of_pos (by simpa using ht), List.map_cons, List.nodup_cons] at this
    exact this.2
  type_eq f hf g hg := h.type_eq f (List.mem_cons_of_mem _ hf) g (List.mem_cons_of_mem _ hg)

/-- Other attributes are overwritten. -/
theorem setAttr (h : ChunkTable (x :: R) C) (hid : y.id = x.id) (ht : y.type = x.type)
    (hc : y.chunkcount = x.chunkcount) : ChunkTable (y :: R) C where
  count f hf := by
    rcases List.mem_cons.mp hf with rfl | hf
    · rw [hc, hid, h.count x List.mem_cons_self]
    · exact h.count f (List.mem_cons_of_mem _ hf)
  place := h.place
  aligned := h.aligned
  owner c hcm := by
    obtain ⟨g, hg, hgi, hgt⟩ := h.owner c hcm
    rcases List.mem_cons.mp hg with rfl | hg
    · exact ⟨y, List.mem_cons_self, hid.trans hgi, ht.trans hgt⟩
    · exact ⟨g, List.mem_cons_of_mem _ hg, hgi, hgt⟩
  one := by
    have := h.one
    rw [List.filter_cons] at this ⊢
    rw [ht]
    split_ifs at this ⊢
    · rw [List.map_cons] at this ⊢
      rwa [hid]
    · exact this
  type_eq f hf g hg he := by
    rcases List.mem_cons.mp hf with rfl | hf' <;> rcases List.mem_cons.mp hg with rfl | hg'
    · rfl
    · rw [ht, h.type_eq x List.mem_cons_self g (List.mem_cons_of_mem _ hg') (hid.symm.trans he)]
    · rw [ht, h.type_eq f (List.mem_cons_of_mem _ hf') x List.mem_cons_self (he.trans hid)]
    · exact h.type_eq f (List.mem_cons_of_mem _ hf') g (List.mem_cons_of_mem _ hg') he

end ChunkTable

/-! ## The sequence up to order -/

section

variable {l l' : List Meta} {m : Meta}

theorem delOk_perm (h : Leaves.delOk l m = some l') :
    ∃ z ∈ l, Leaves.hits m z = true ∧ List.Perm l (z :: l') := by
  unfold Leaves.delOk at h
  split_ifs at h with hany
  obtain rfl := Option.some.inj h
  rcases Leaves.del_perm l m with ⟨z, hz, hh, hp⟩ | ⟨hno, -⟩
  · exact ⟨z, hz, hh, hp⟩
  · obtain ⟨z, hz, hh⟩ := List.any_eq_true.mp hany
    rw [hno z hz] at hh
    exact absurd hh Bool.false_ne_true

theorem hits_kind {z : Meta} (h : Leaves.hits m z = true) : m.key.kind = z.key.kind ∧ m.id = z.id ∨
    ∃ d e, m = .dentry d ∧ z = .dentry e := by
  rw [Leaves.hits, Bool.and_eq_true, Key.eqv_iff] at h
  cases m <;> cases z <;> simp_all [Meta.key, MetaType.val, Meta.matchItem, Meta.id]

theorem delOk_dentry {d : MetaDentry} (h : Leaves.delOk l (.dentry d) = some l') :
    List.Perm (fattrs l) (fattrs l') ∧ List.Perm (chunks l) (chunks l') := by
  obtain ⟨z, -, hh, hp⟩ := delOk_perm h
  obtain ⟨e, rfl⟩ : ∃ e, z = .dentry e := by
    rcases hits_kind hh with ⟨hk, -⟩ | ⟨_, e, -, rfl⟩
    · cases z <;> simp [Meta.key] at hk
      exact ⟨_, rfl⟩
    · exact ⟨e, rfl⟩
  exact ⟨hp.filterMap _, hp.filterMap _⟩

theorem delOk_fattr {f : MetaFattr} (h : Leaves.delOk l (.fattr f) = some l') :
    ∃ g, g.id = f.id ∧ List.Perm (fattrs l) (g :: fattrs l') ∧ List.Perm (chunks l) (chunks l') := by
  obtain ⟨z, -, hh, hp⟩ := delOk_perm h
  obtain ⟨g, rfl, hg⟩ : ∃ g, z = .fattr g ∧ g.id = f.id := by
    rcases hits_kind hh with ⟨hk, hid⟩ | ⟨_, _, he, -⟩
    · cases z <;> simp [Meta.key] at hk
      exact ⟨_, rfl, hid.symm⟩
    · simp at he
  exact ⟨g, hg, hp.filterMap _, hp.filterMap _⟩

/-- A chunk that is looked for by its own id and offset is the one that is removed. -/
theorem delOk_chunk {c : MetaChunkInfo} (hc : c ∈ chunks l)
    (hplace : ((chunks l).map fun c => (c.id, c.offset)).Nodup)
    (haligned : ∀ c ∈ chunks l, CHUNKSIZE ∣ c.offset) (h : Leaves.delOk l (.chunkinfo c) = some l') :
    List.Perm (fattrs l) (fattrs l') ∧ List.Perm (chunks l) (c :: chunks l') := by
  obtain ⟨z, hz, hh, hp⟩ := delOk_perm h
  have hne : ∀ c ∈ chunks l, c.offset ≠ -1 := by
    intro c hc he
    have := haligned c hc
    rw [he] at this
    exact absurd this (by decide)
  obtain ⟨e, rfl, hid, hoff⟩ : ∃ e, z = .chunkinfo e ∧ e.id = c.id ∧
      (e.offset = c.offset ∨ e.offset = -1 ∨ c.offset = -1) := by
    rw [Leaves.hits, Bool.and_eq_true, Key.eqv_comm, show (Meta.chunkinfo c).key =
      ⟨.chunkinfo, c.id, c.offset⟩ from rfl, eqv_chunk] at hh
    exact hh.1
  have hem : e ∈ chunks l := mem_chunks.mpr hz
  have hoff : e.offset = c.offset := by
    rcases hoff with he | he | he
    · exact he
    · exact absurd he (hne e hem)
    · exact absurd he (hne c hc)
  obtain rfl : e = c := List.inj_on_of_nodup_map hplace hem hc (by rw [hid, hoff])
  exact ⟨hp.filterMap _, hp.filterMap _⟩

theorem deleteChunks_perm : ∀ {D : List MetaChunkInfo} {l : List Meta}, D.Nodup → D ⊆ chunks l →
    ((chunks l).map fun c => (c.id, c.offset)).Nodup → (∀ c ∈ chunks l, CHUNKSIZE ∣ c.offset) →
    deleteChunks l D = some l' →
    List.Perm (fattrs l) (fattrs l') ∧ List.Perm (chunks l) (D ++ chunks l')
  | [], l, _, _, _, _, h => by
    obtain rfl : l = l' := by simpa [deleteChunks] using h
    exact ⟨.refl _, .refl _⟩
  | c :: D, l, hn, hsub, hplace, haligned, h => by
    simp only [deleteChunks, List.foldlM_cons, Option.bind_eq_bind, Option.bind_eq_some_iff] at h
    obtain ⟨l₁, h₁, h₂⟩ := h
    obtain ⟨hF, hC⟩ := delOk_chunk (hsub List.mem_cons_self) hplace haligned h₁
    rw [List.nodup_cons] at hn
    have hplace₁ := (hC.map _).nodup_iff.mp hplace
    rw [List.map_cons, List.nodup_cons] at hplace₁
    have hsub₁ : D ⊆ chunks l₁ := by
      intro e he
      rcases List.mem_cons.mp (hC.mem_iff.mp (hsub (List.mem_cons_of_mem _ he))) with rfl | he'
      · exact absurd he hn.1
      · exact he'
    obtain ⟨hF', hC'⟩ := deleteChunks_perm hn.2 hsub₁ hplace₁.2
      (fun e he => haligned e (hC.mem_iff.mpr (List.mem_cons_of_mem _ he))) h₂
    exact ⟨hF.trans hF', hC.trans (hC'.cons c)⟩

/-- Overwriting replaces one item with the key. -/
theorem update_perm {k : Key} {g : Meta → Meta} (h : ∃ z ∈ l, z.key.eqv k = true) :
    ∃ z r, z.key.eqv k = true ∧ List.Perm l (z :: r) ∧ List.Perm (Leaves.update l k g) (g z :: r) := by
  induction l with
  | nil => simp at h
  | cons y l ih =>
    rw [Leaves.update]
    by_cases hy : y.key.eqv k = true
    · rw [if_pos hy]
      exact ⟨y, l, hy, .refl _, .refl _⟩
    · rw [if_neg hy]
      obtain ⟨z, hz, hk⟩ := h
      rcases List.mem_cons.mp hz with rfl | hz
      · exact absurd hk hy
      · obtain ⟨z', r, hz', hp, hp'⟩ := ih ⟨z, hz, hk⟩
        exact ⟨z', y :: r, hz', (hp.cons y).trans (.swap _ _ _), (hp'.cons y).trans (.swap _ _ _)⟩

/-- Overwriting the attributes of a file. -/
theorem update_fattr {fid : ℤ} {g : Meta → Meta} (h : ∃ f ∈ fattrs l, f.id = fid)
    (hg : ∀ f, ∃ f', g (.fattr f) = .fattr f') :
    ∃ f f' R, f.id = fid ∧ g (.fattr f) = .fattr f' ∧ List.Perm (fattrs l) (f :: R) ∧
      List.Perm (fattrs (Leaves.update l ⟨.fattr, fid, 0⟩ g)) (f' :: R) ∧
      List.Perm (chunks l) (chunks (Leaves.update l ⟨.fattr, fid, 0⟩ g)) := by
  obtain ⟨f₀, hf₀, hid₀⟩ := h
  obtain ⟨z, r, hz, hp, hp'⟩ := update_perm (k := ⟨.fattr, fid, 0⟩) (g := g)
    ⟨.fattr f₀, mem_fattrs.mp hf₀, (eqv_fattr _ fid).mpr ⟨f₀, rfl, hid₀⟩⟩
  obtain ⟨f, rfl, hf⟩ := (eqv_fattr z fid).mp hz
  obtain ⟨f', hf'⟩ := hg f
  rw [hf'] at hp'
  exact ⟨f, f', fattrs r, hf, hf', hp.filterMap _, hp'.filterMap _,
    (hp.filterMap Meta.chunkinfo?).trans (hp'.filterMap Meta.chunkinfo?).symm⟩

end

/-! ## The operations of the name space -/

variable {env : Env} {fs fs' fs₁ : Fs} {l l' : List Meta} {dir fid st : ℤ} {name : Str}

/-- The attributes and chunks of a state agree. -/
def Fs.ChunkTable (fs : Fs) : Prop := Kfs.ChunkTable (fattrs fs.leaves) (chunks fs.leaves)

/-- What an operation of the name space does to the chunks: it makes none, and new attributes have new ids
or the id and type of attributes that were there. -/
structure KeptChunks (fs fs' : Fs) : Prop where
  table : fs'.ChunkTable
  sub : ∀ c ∈ chunks fs'.leaves, c ∈ chunks fs.leaves
  attr : ∀ f ∈ fattrs fs'.leaves, fs.fileID < f.id ∨
    ∃ g ∈ fattrs fs.leaves, g.id = f.id ∧ g.type = f.type
  seed : fs'.chunkID = fs.chunkID
  le : fs.fileID ≤ fs'.fileID

namespace KeptChunks

theorem refl (h : fs.ChunkTable) : KeptChunks fs fs :=
  ⟨h, fun _ hc => hc, fun f hf => Or.inr ⟨f, hf, rfl, rfl⟩, rfl, le_rfl⟩

theorem trans (h₁ : KeptChunks fs fs₁) (h₂ : KeptChunks fs₁ fs') : KeptChunks fs fs' where
  table := h₂.table
  sub c hc := h₁.sub c (h₂.sub c hc)
  attr f hf := by
    rcases h₂.attr f hf with hlt | ⟨g, hg, hgi, hgt⟩
    · exact Or.inl (lt_of_le_of_lt h₁.le hlt)
    · rcases h₁.attr g hg with hlt | ⟨g', hg', hgi', hgt'⟩
      · exact Or.inl (hgi ▸ hlt)
      · exact Or.inr ⟨g', hg', hgi'.trans hgi, hgt'.trans hgt⟩
  seed := h₂.seed.trans h₁.seed
  le := h₁.le.trans h₂.le

/-- A change of entries only. -/
theorem of_perm {l : List Meta} (h : fs.ChunkTable) (hF : List.Perm (fattrs fs.leaves) (fattrs l))
    (hC : List.Perm (chunks fs.leaves) (chunks l)) : KeptChunks fs { fs with leaves := l } where
  table := ChunkTable.perm h hF hC
  sub _ hc := hC.mem_iff.mpr hc
  attr f hf := Or.inr ⟨f, hF.mem_iff.mpr hf, rfl, rfl⟩
  seed := rfl
  le := le_rfl

end KeptChunks

theorem chunks_insert_dentry (l : List Meta) (d : MetaDentry) :
    chunks (Leaves.insert l (.dentry d)) = chunks l :=
  filterMap_insert _ rfl l

theorem chunks_insert_fattr (l : List Meta) (f : MetaFattr) :
    chunks (Leaves.insert l (.fattr f)) = chunks l :=
  filterMap_insert _ rfl l

theorem fattrs_insert_fattr (l : List Meta) (f : MetaFattr) :
    List.Perm (fattrs (Leaves.insert l (.fattr f))) (f :: fattrs l) :=
  (Leaves.insert_perm l (.fattr f)).filterMap _

theorem mkdirAt_chunks (h : fs.ChunkTable) {dname : Str} {id n : ℤ} (hn : fs.fileID ≤ n)
    (hx : ∀ f ∈ fattrs fs.leaves, f.id = id → f.type = .dir)
    (hid : fs.fileID < id ∨ ∃ f ∈ fattrs fs.leaves, f.id = id) :
    KeptChunks fs (Fs.mkdirAt env { fs with fileID := n } dir dname id) := by
  have hC : chunks (Fs.mkdirAt env { fs with fileID := n } dir dname id).leaves = chunks fs.leaves := by
    simp only [Fs.mkdirAt, chunks_insert_dentry, chunks_insert_fattr]
  have hF : List.Perm (fattrs (Fs.mkdirAt env { fs with fileID := n } dir dname id).leaves)
      (MetaFattr.new env .dir id 1 :: fattrs fs.leaves) := by
    simp only [Fs.mkdirAt, fattrs_insert_dentry]
    refine (fattrs_insert_fattr _ _).trans ?_
    rw [fattrs_insert_dentry]
  refine ⟨?_, fun _ hc => hC ▸ hc, fun f hf => ?_, rfl, hn⟩
  · refine ChunkTable.perm (ChunkTable.addDir h ?_ ?_ hx) hF.symm (by rw [hC])
    · rfl
    · rfl
  · rcases List.mem_cons.mp (hF.mem_iff.mp hf) with rfl | hf
    · rcases hid with hlt | ⟨g, hg, hgi⟩
      · exact Or.inl hlt
      · exact Or.inr ⟨g, hg, hgi, hx g hg hgi⟩
    · exact Or.inr ⟨f, hf, rfl, rfl⟩

/-- A directory with a new id. -/
theorem mkdirAt_new_chunks (htidy : Tidy fs) (h : fs.ChunkTable) {dname : Str} :
    KeptChunks fs (Fs.mkdirAt env { fs with fileID := fs.fileID + 1 } dir dname (fs.fileID + 1)) := by
  refine mkdirAt_chunks h (by omega) (fun g hg hgi => ?_) (Or.inl (by omega))
  have := htidy.attr_le g (mem_fattrs.mp hg)
  omega

theorem mkdir_chunks (htidy : Tidy fs) (h : fs.ChunkTable) {dname : Str} {id : ℤ} {f : MetaFattr}
    (hf : f ∈ fattrs fs.leaves) (hfi : f.id = dir) (ht : f.type = .dir)
    (hm : mkdir env fs dir dname 0 = some (st, id, fs')) : KeptChunks fs fs' := by
  rcases mkdir_spec hm with ⟨-, rfl⟩ | ⟨-, -, -, ⟨-, -, rfl, rfl⟩ | ⟨-, -, rfl, rfl⟩ | ⟨h0, -⟩⟩
  · exact .refl h
  · exact mkdirAt_new_chunks htidy h
  · exact mkdirAt_chunks h le_rfl
      (fun g hg hgi => by rw [h.type_eq g hg f hf (hgi.trans hfi.symm), ht]) (Or.inr ⟨f, hf, hfi⟩)
  · exact absurd rfl h0

theorem rmdir_chunks (h : fs.ChunkTable) {dname : Str} (hr : rmdir fs dir dname = some (st, fs')) :
    KeptChunks fs fs' := by
  rcases rmdir_spec hr with ⟨-, rfl⟩ | ⟨-, fa, l', hd, rfl⟩
  · exact .refl h
  obtain ⟨l₁, l₂, l₃, h₁, h₂, h₃, h₄⟩ := hd.done
  obtain ⟨hF₁, hC₁⟩ := delOk_dentry h₁
  obtain ⟨hF₂, hC₂⟩ := delOk_dentry h₂
  obtain ⟨hF₃, hC₃⟩ := delOk_dentry h₃
  obtain ⟨g, hgi, hF₄, hC₄⟩ := delOk_fattr h₄
  have hF := ((hF₁.trans hF₂).trans hF₃).trans hF₄
  have hC := ((hC₁.trans hC₂).trans hC₃).trans hC₄
  have hgm : g ∈ fattrs fs.leaves := hF.mem_iff.mpr List.mem_cons_self
  have hgt : g.type = .dir := by
    rw [h.type_eq g hgm fa (mem_fattrs.mpr (lookup_mem hd.found)) hgi, hd.type]
  exact ⟨ChunkTable.dropDir (ChunkTable.perm h hF hC) hgt, fun c hc => hC.mem_iff.mpr hc,
    fun f hf => Or.inr ⟨f, hF.mem_iff.mpr (List.mem_cons_of_mem _ hf), rfl, rfl⟩, rfl, le_rfl⟩

theorem relink_chunks (h : fs.ChunkTable) {p : RenamePlan} (hr : relink env fs.leaves p = some l') :
    KeptChunks fs { fs with leaves := l' } := by
  obtain ⟨-, hr⟩ := relink_spec hr
  split_ifs at hr with ht
  · obtain ⟨-, l₁, l₂, h₁, h₂, rfl⟩ := hr
    obtain ⟨hF₁, hC₁⟩ := delOk_dentry h₁
    obtain ⟨hF₂, hC₂⟩ := delOk_dentry h₂
    refine .of_perm h ?_ ?_
    · rw [fattrs_insert_dentry, fattrs_insert_dentry]
      exact hF₁.trans hF₂
    · rw [chunks_insert_dentry, chunks_insert_dentry]
      exact hC₁.trans hC₂
  · obtain ⟨l₂, h₂, rfl⟩ := hr
    obtain ⟨hF₂, hC₂⟩ := delOk_dentry h₂
    refine .of_perm h ?_ ?_
    · rwa [fattrs_insert_dentry]
    · rwa [chunks_insert_dentry]

/-- The removals that `rename` is run with keep the chunk table. -/
def KeepsChunks (rm : Fs → ℤ → Str → Option (ℤ × Fs)) : Prop :=
  ∀ ⦃fs dir name st fs'⦄, Tidy fs → fs.ChunkTable → rm fs dir name = some (st, fs') →
    KeptChunks fs fs'

section

variable {rm : Fs → ℤ → Str → Option (ℤ × Fs)}

theorem clearTarget_chunks (hrm : KeepsChunks rm) (htidy : Tidy fs) (h : fs.ChunkTable) {p : RenamePlan}
    (hc : clearTarget rm fs p = some (st, fs')) : KeptChunks fs fs' := by
  unfold clearTarget at hc
  split_ifs at hc
  · exact rmdir_chunks h hc
  · exact hrm htidy h hc
  · obtain ⟨-, rfl⟩ : 0 = st ∧ fs = fs' := by simpa using hc
    exact .refl h

theorem renameWith_chunks (hrm : KeepsChunks rm) (htidy : Tidy fs) (h : fs.ChunkTable) {parent : ℤ}
    {oldname newname : Str} {overwrite : Bool}
    (hr : renameWith rm env fs parent oldname newname overwrite = some (st, fs')) :
    KeptChunks fs fs' := by
  rcases renameWith_spec hr with ⟨-, rfl⟩ | ⟨p, hp, ⟨-, hc⟩ | ⟨-, fs₁, l', hc, hl, rfl⟩⟩
  · exact .refl h
  · exact clearTarget_chunks hrm htidy h hc
  · have h₁ := clearTarget_chunks hrm htidy h hc
    exact h₁.trans (relink_chunks h₁.table hl)

theorem getDumpster_chunks (htidy : Tidy fs) (h : fs.ChunkTable) {fa : MetaFattr}
    (hg : getDumpster env fs = some (fa, fs')) : KeptChunks fs fs' := by
  rcases getDumpster_spec hg with ⟨-, rfl⟩ | ⟨-, rfl, -⟩
  · exact .refl h
  · exact mkdirAt_new_chunks htidy h

theorem moveToDumpsterWith_chunks (hrm : KeepsChunks rm) (htidy : Tidy fs) (h : fs.ChunkTable)
    (hm : moveToDumpsterWith rm env fs dir name = some (st, fs')) : KeptChunks fs fs' := by
  obtain ⟨fa, fs₁, hg, ⟨-, -, rfl⟩ | ⟨-, hr⟩⟩ := moveToDumpsterWith_spec hm
  · exact getDumpster_chunks htidy h hg
  · have h₁ := getDumpster_chunks htidy h hg
    have htidy₂ : Tidy { fs₁ with counter := fs₁.counter + 1 } :=
      (getDumpster_tidy htidy hg).1.of_imp le_rfl (fun _ hm => hm) fun f hf => ⟨f, hf, rfl, rfl⟩
    have h₂ : KeptChunks fs₁ { fs₁ with counter := fs₁.counter + 1 } :=
      ⟨h₁.table, fun _ hc => hc, fun f hf => Or.inr ⟨f, hf, rfl, rfl⟩, rfl, le_rfl⟩
    exact (h₁.trans h₂).trans (renameWith_chunks hrm htidy₂ h₂.table hr)

end

/-- A removal of a file takes all its chunks with it. -/
theorem removed_chunks (h : fs.ChunkTable) {fa : MetaFattr} {l₁ : List Meta}
    (hl : lookup fs.leaves dir name = some (some fa)) (ht : fa.type = .file)
    (h₁ : dropChunks fs.leaves fa (getalloc fs.leaves fa.id) = some l₁)
    (h₂ : unlink l₁ dir name fa false = some l') : KeptChunks fs { fs with leaves := l' } := by
  have hfm : fa ∈ fattrs fs.leaves := mem_fattrs.mpr (lookup_mem hl)
  have hD : List.Perm (fattrs fs.leaves) (fattrs l₁) ∧
      List.Perm (chunks fs.leaves) (getalloc fs.leaves fa.id ++ chunks l₁) := by
    unfold dropChunks at h₁
    rw [getalloc_eq] at h₁ ⊢
    split_ifs at h₁ with hcc
    · exact deleteChunks_perm (h.place.of_map.filter _) List.filter_sublist.subset h.place h.aligned h₁
    · obtain rfl := Option.some.inj h₁
      refine ⟨.refl _, ?_⟩
      have hz := h.count fa hfm
      rw [List.countP_eq_length_filter] at hz
      rw [List.eq_nil_of_length_eq_zero (l := (chunks fs.leaves).filter _) (by omega)]
      exact .refl _
  obtain ⟨l₂, h₂, h₃⟩ := unlink_iff.mp h₂
  obtain ⟨hF₂, hC₂⟩ := delOk_dentry h₂
  obtain ⟨g, hgi, hF₃, hC₃⟩ := delOk_fattr h₃
  have hF := (hD.1.trans hF₂).trans hF₃
  have hC := hD.2.trans ((hC₂.trans hC₃).append_left _)
  have hgm : g ∈ fattrs fs.leaves := hF.mem_iff.mpr List.mem_cons_self
  have hgt : g.type = .file := (h.type_eq g hgm fa hfm hgi).trans ht
  have hmem : ∀ c, c ∈ getalloc fs.leaves fa.id ↔ c ∈ chunks fs.leaves ∧ c.id = fa.id := by
    intro c
    rw [getalloc_eq, List.mem_filter, decide_eq_true_eq]
  refine ⟨ChunkTable.dropFile (ChunkTable.perm h hF (.refl _)) hgt hC
    (fun c hc => hgi ▸ ((hmem c).mp hc).2) fun c hc he => ?_,
    fun c hc => hC.mem_iff.mpr (List.mem_append_right _ hc),
    fun f hf => Or.inr ⟨f, hF.mem_iff.mpr (List.mem_cons_of_mem _ hf), rfl, rfl⟩, rfl, le_rfl⟩
  have hcm := hC.mem_iff.mpr (List.mem_append_right _ hc)
  have hnd := hC.nodup_iff.mp h.place.of_map
  exact (List.nodup_append.mp hnd).2.2 c ((hmem c).mpr ⟨hcm, he.trans hgi⟩) c hc rfl

theorem removeF_chunks (env : Env) : ∀ fuel, KeepsChunks (removeF fuel env)
  | 0 => by
    intro fs dir name st fs' _ _ hr
    simp [removeF] at hr
  | fuel + 1 => by
    intro fs dir name st fs' htidy h hr
    rcases removeF_spec hr with ⟨-, rfl⟩ | ⟨fa, hl, ht, -, ⟨-, -, hm⟩ | ⟨-, -, l₁, l', h₁, h₂, rfl⟩⟩
    · exact .refl h
    · exact moveToDumpsterWith_chunks (removeF_chunks env fuel) htidy h hm
    · exact removed_chunks h hl ht h₁ h₂

theorem create_chunks (htidy : Tidy fs) (h : fs.ChunkTable) {id n : ℤ} {exclusive : Bool}
    (hc : create env fs dir name 0 n exclusive = some (st, id, fs')) : KeptChunks fs fs' := by
  rcases create_spec hc with
    ⟨-, rfl⟩ | ⟨-, -, fa, -, -, st₁, fs₁, hr, hcase⟩
  · exact .refl h
  have h₁ : KeptChunks fs fs₁ := by
    unfold removeOld at hr
    split_ifs at hr
    · exact removeF_chunks env 2 htidy h hr
    · obtain ⟨-, rfl⟩ : 0 = st₁ ∧ fs = fs₁ := by simpa using hr
      exact .refl h
  rcases hcase with ⟨-, -, rfl⟩ | ⟨-, -, rfl, l', hlk, rfl⟩
  · exact h₁
  obtain ⟨htidy₁, -⟩ := removeOld_tidy htidy hr
  obtain ⟨-, rfl⟩ := link_spec hlk
  refine h₁.trans ?_
  simp only [if_true]
  have hle : fs₁.fileID ≤ fs₁.fileID + 1 := by omega
  split_ifs
  · have hF : List.Perm (fattrs (Leaves.insert (Leaves.insert fs₁.leaves
        (.dentry ⟨dir, name, fs₁.fileID + 1⟩)) (.fattr (MetaFattr.new env .file (fs₁.fileID + 1) n))))
        (MetaFattr.new env .file (fs₁.fileID + 1) n :: fattrs fs₁.leaves) := by
      refine (fattrs_insert_fattr _ _).trans ?_
      rw [fattrs_insert_dentry]
    have hC : chunks (Leaves.insert (Leaves.insert fs₁.leaves (.dentry ⟨dir, name, fs₁.fileID + 1⟩))
        (.fattr (MetaFattr.new env .file (fs₁.fileID + 1) n))) = chunks fs₁.leaves := by
      rw [chunks_insert_fattr, chunks_insert_dentry]
    refine ⟨ChunkTable.perm (ChunkTable.addFile h₁.table rfl rfl fun f hf => ?_) hF.symm
      (by rw [hC]), fun c hc => ?_, fun f hf => ?_, rfl, hle⟩
    · have := htidy₁.attr_le f (mem_fattrs.mp hf)
      change f.id ≠ fs₁.fileID + 1
      omega
    · exact hC ▸ hc
    · rcases List.mem_cons.mp (hF.mem_iff.mp hf) with rfl | hf
      · left
        change fs₁.fileID < fs₁.fileID + 1
        omega
      · exact Or.inr ⟨f, hf, rfl, rfl⟩
  · have := KeptChunks.of_perm (l := Leaves.insert fs₁.leaves (.dentry ⟨dir, name, fs₁.fileID + 1⟩))
      h₁.table (by rw [fattrs_insert_dentry]) (by rw [chunks_insert_dentry])
    exact ⟨this.table, this.sub, this.attr, rfl, hle⟩

end Kfs
