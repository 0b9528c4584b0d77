import Kfs.Fs.Tidy

/-!
# The order of the sequence

Every operation is a sequence of insertions, removals and overwritings of single items; so the sequence stays
ordered, and chunks come and go only where an operation says so.

* `Edits I`: such a sequence, in which every item that is written meets `I`;
* `Edits.ordered`: it keeps the order; `Edits.mem`: an item was there before or meets `I`;
* `mkdir_edits`, `rmdir_edits`, `removeF_edits`, `renameWith_edits`, `create_edits`, …: the operations.
-/

namespace Kfs

/-- Insertions, removals and overwritings; the items that are written meet `I`. -/
inductive Edits (I : Meta → Prop) (l : List Meta) : List Meta → Prop
  | refl : Edits I l l
  | insert {l' m} : Edits I l l' → I m → Edits I l (Leaves.insert l' m)
  | delOk {l' m l''} : Edits I l l' → Leaves.delOk l' m = some l'' → Edits I l l''
  | update {l' k g} : Edits I l l' → (∀ x ∈ l', x.key.eqv k = true → (g x).key = x.key ∧ I (g x)) →
      Edits I l (Leaves.update l' k g)

variable {env : Env} {fs fs' : Fs} {l l' l₁ l₂ : List Meta} {dir fid st : ℤ} {name : Str}
  {I J : Meta → Prop} {m : Meta}

namespace Edits

theorem trans (h₁ : Edits I l l₁) (h₂ : Edits I l₁ l₂) : Edits I l l₂ := by
  induction h₂ with
  | refl => exact h₁
  | insert _ hm ih => exact ih.insert hm
  | delOk _ hd ih => exact ih.delOk hd
  | update _ hg ih => exact ih.update hg

theorem mem (h : Edits I l l') {x : Meta} (hx : x ∈ l') : x ∈ l ∨ I x := by
  induction h with
  | refl => exact Or.inl hx
  | insert _ hm ih =>
    rcases Leaves.mem_insert.mp hx with rfl | hx
    · exact Or.inr hm
    · exact ih hx
  | delOk _ hd ih => exact ih (Leaves.delOk_subset hd hx)
  | update _ hg ih =>
    rcases Leaves.mem_update hx with hx | ⟨y, hy, hk, rfl⟩
    · exact ih hx
    · exact Or.inr (hg y hy hk).2

end Edits

theorem update_map_key {k : Key} {g : Meta → Meta} :
    ∀ {l : List Meta}, (∀ x ∈ l, x.key.eqv k = true → (g x).key = x.key) →
      (Leaves.update l k g).map Meta.key = l.map Meta.key
  | [], _ => rfl
  | x :: l, h => by
    rw [Leaves.update]
    split_ifs with hk
    · rw [List.map_cons, List.map_cons, h x List.mem_cons_self hk]
    · rw [List.map_cons, List.map_cons, update_map_key fun y hy => h y (List.mem_cons_of_mem _ hy)]

/-- **Edits that write plain keys keep the order.** -/
theorem Edits.ordered (h : Edits I l l') (hI : ∀ m, I m → m.key.Plain) (ho : Ordered (l.map Meta.key)) :
    Ordered (l'.map Meta.key) := by
  induction h with
  | refl => exact ho
  | insert _ hm ih => exact Leaves.ordered_insert ih (hI _ hm)
  | delOk _ hd ih =>
    unfold Leaves.delOk at hd
    split_ifs at hd
    rw [← Option.some.inj hd]
    exact Leaves.ordered_del ih
  | update _ hg ih => rwa [update_map_key fun x hx hk => (hg x hx hk).1]

/-! ## The name space -/

/-- The entries and attributes, the items that the operations of the name space write. -/
def Meta.NotChunk : Meta → Prop
  | .chunkinfo _ => False
  | _ => True

theorem Meta.NotChunk.plain (h : m.NotChunk) : m.key.Plain := by
  cases m with
  | dentry d => simp [Meta.key, Key.Plain, Key.matchAny]
  | fattr f => simp [Meta.key, Key.Plain, Key.matchAny]
  | chunkinfo c => exact h.elim

theorem Edits.chunk (h : Edits Meta.NotChunk l l') {c : MetaChunkInfo} (hc : .chunkinfo c ∈ l') :
    .chunkinfo c ∈ l :=
  (h.mem hc).resolve_right id

theorem chunks_update {k : Key} {g : Meta → Meta} :
    ∀ {l : List Meta}, (∀ x ∈ l, x.key.eqv k = true → (g x).key = x.key ∧ (g x).NotChunk) →
      chunks (Leaves.update l k g) = chunks l
  | [], _ => rfl
  | x :: l, h => by
    rw [Leaves.update]
    split_ifs with hk
    · obtain ⟨hkey, hn⟩ := h x List.mem_cons_self hk
      have hx : x.chunkinfo? = (g x).chunkinfo? := by
        cases hg : g x with
        | chunkinfo c => rw [hg] at hn; exact hn.elim
        | dentry d => rw [hg] at hkey; cases x <;> first | rfl | simp [Meta.key] at hkey
        | fattr f => rw [hg] at hkey; cases x <;> first | rfl | simp [Meta.key] at hkey
      simp only [chunks, List.filterMap_cons, hx]
    · have ih := chunks_update fun y hy => h y (List.mem_cons_of_mem _ hy)
      unfold chunks at ih ⊢
      rw [List.filterMap_cons, List.filterMap_cons, ih]

theorem Edits.chunks_sublist (h : Edits Meta.NotChunk l l') : List.Sublist (chunks l') (chunks l) := by
  induction h with
  | refl => exact List.Sublist.refl _
  | @insert l' m _ hm ih =>
    have : chunks (Leaves.insert l' m) = chunks l' := by
      refine filterMap_insert _ ?_ l'
      cases m with
      | dentry d => rfl
      | fattr f => rfl
      | chunkinfo c => exact hm.elim
    rwa [this]
  | delOk _ hd ih =>
    unfold Leaves.delOk at hd
    split_ifs at hd
    rw [← Option.some.inj hd]
    exact (List.eraseP_sublist.filterMap _).trans ih
  | update _ hg ih => rwa [chunks_update hg]

/-- An operation on the metadata that only edits entries and attributes. -/
structure NameEdits (fs fs' : Fs) : Prop where
  edits : Edits Meta.NotChunk fs.leaves fs'.leaves
  chunkID : fs'.chunkID = fs.chunkID
  inc : fs'.chunkVersionInc = fs.chunkVersionInc

namespace NameEdits

theorem refl (fs : Fs) : NameEdits fs fs := ⟨.refl, rfl, rfl⟩

theorem trans {fs₁ fs₂ : Fs} (h₁ : NameEdits fs fs₁) (h₂ : NameEdits fs₁ fs₂) : NameEdits fs fs₂ :=
  ⟨h₁.edits.trans h₂.edits, h₂.chunkID.trans h₁.chunkID, h₂.inc.trans h₁.inc⟩

theorem bump (fs : Fs) : NameEdits fs { fs with fileID := fs.fileID + 1 } := ⟨.refl, rfl, rfl⟩

theorem of_edits (h : Edits Meta.NotChunk fs.leaves l) : NameEdits fs { fs with leaves := l } := ⟨h, rfl, rfl⟩

end NameEdits

theorem mkdirAt_edits (env : Env) (fs : Fs) (dir : ℤ) (dname : Str) (id : ℤ) :
    NameEdits fs (Fs.mkdirAt env fs dir dname id) :=
  .of_edits ((((Edits.refl.insert trivial).insert trivial).insert trivial).insert trivial)

theorem mkdir_edits {dname : Str} {newFid id : ℤ}
    (h : mkdir env fs dir dname newFid = some (st, id, fs')) : NameEdits fs fs' := by
  rcases mkdir_spec h with ⟨-, rfl⟩ | ⟨-, -, -, ⟨-, -, -, rfl⟩ | ⟨-, -, -, rfl⟩ | ⟨-, -, rfl⟩⟩
  · exact .refl _
  · exact (NameEdits.bump fs).trans (mkdirAt_edits env _ dir dname id)
  · exact mkdirAt_edits env fs dir dname id
  · exact mkdirAt_edits env fs dir dname id

theorem rmdir_edits {dname : Str} (h : rmdir fs dir dname = some (st, fs')) : NameEdits fs fs' := by
  rcases rmdir_spec h with ⟨-, rfl⟩ | ⟨-, fa, l', hd, rfl⟩
  · exact .refl _
  · obtain ⟨l₁, l₂, l₃, h₁, h₂, h₃, h₄⟩ := hd.done
    exact .of_edits ((((Edits.refl.delOk h₁).delOk h₂).delOk h₃).delOk h₄)

theorem deleteChunks_edits : ∀ {cs : List MetaChunkInfo} {l l' : List Meta},
    deleteChunks l cs = some l' → Edits I l l'
  | [], l, l', h => by
    obtain rfl : l = l' := by simpa [deleteChunks] using h
    exact .refl
  | c :: cs, l, l', h => by
    simp only [deleteChunks, List.foldlM_cons, Option.bind_eq_bind, Option.bind_eq_some_iff] at h
    obtain ⟨l₁, h₁, h₂⟩ := h
    exact (Edits.refl.delOk h₁).trans (deleteChunks_edits h₂)

theorem dropChunks_edits {fa : MetaFattr} {cs : List MetaChunkInfo}
    (h : dropChunks l fa cs = some l') : Edits I l l' := by
  unfold dropChunks at h
  split_ifs at h
  · exact deleteChunks_edits h
  · obtain rfl := Option.some.inj h
    exact .refl

theorem unlink_edits {fa : MetaFattr} (h : unlink l dir name fa false = some l') : Edits I l l' := by
  obtain ⟨l₁, h₁, h₂⟩ := unlink_iff.mp h
  exact (Edits.refl.delOk h₁).delOk h₂

theorem relink_edits {p : RenamePlan} (h : relink env l p = some l') : Edits Meta.NotChunk l l' := by
  obtain ⟨-, h⟩ := relink_spec h
  split_ifs at h
  · obtain ⟨-, l₁, l₂, h₁, h₂, rfl⟩ := h
    exact (((Edits.refl.delOk h₁).delOk h₂).insert trivial).insert trivial
  · obtain ⟨l₂, h₂, rfl⟩ := h
    exact (Edits.refl.delOk h₂).insert trivial

/-- The removals that `rename` is run with are edits. -/
def RmEdits (rm : Fs → ℤ → Str → Option (ℤ × Fs)) : Prop :=
  ∀ ⦃fs dir name st fs'⦄, rm fs dir name = some (st, fs') → NameEdits fs fs'

section

variable {rm : Fs → ℤ → Str → Option (ℤ × Fs)}

theorem clearTarget_edits (hrm : RmEdits rm) {p : RenamePlan}
    (h : clearTarget rm fs p = some (st, fs')) : NameEdits fs fs' := by
  unfold clearTarget at h
  split_ifs at h
  · exact rmdir_edits h
  · exact hrm h
  · obtain ⟨-, rfl⟩ : 0 = st ∧ fs = fs' := by simpa using h
    exact .refl _

theorem renameWith_edits (hrm : RmEdits rm) {parent : ℤ} {oldname newname : Str} {overwrite : Bool}
    (h : renameWith rm env fs parent oldname newname overwrite = some (st, fs')) : NameEdits fs fs' := by
  rcases renameWith_spec h with ⟨-, rfl⟩ | ⟨p, hp, ⟨-, hc⟩ | ⟨-, fs₁, l', hc, hl, rfl⟩⟩
  · exact .refl _
  · exact clearTarget_edits hrm hc
  · exact (clearTarget_edits hrm hc).trans (.of_edits (relink_edits hl))

theorem getDumpster_edits {fa : MetaFattr} (h : getDumpster env fs = some (fa, fs')) : NameEdits fs fs' := by
  rcases getDumpster_spec h with ⟨-, rfl⟩ | ⟨-, rfl, -⟩
  · exact .refl _
  · exact (NameEdits.bump fs).trans (mkdirAt_edits env _ ROOTFID DUMPSTERDIR (fs.fileID + 1))

theorem moveToDumpsterWith_edits (hrm : RmEdits rm)
    (h : moveToDumpsterWith rm env fs dir name = some (st, fs')) : NameEdits fs fs' := by
  obtain ⟨fa, fs₁, hg, ⟨-, -, rfl⟩ | ⟨-, hr⟩⟩ := moveToDumpsterWith_spec h
  · exact getDumpster_edits hg
  · have h₁ : NameEdits fs { fs₁ with counter := fs₁.counter + 1 } :=
      (getDumpster_edits hg).trans ⟨.refl, rfl, rfl⟩
    exact h₁.trans (renameWith_edits hrm hr)

end

theorem removeF_edits (env : Env) : ∀ fuel, RmEdits (removeF fuel env)
  | 0 => by
    intro fs dir name st fs' h
    simp [removeF] at h
  | fuel + 1 => by
    intro fs dir name st fs' h
    rcases removeF_spec h with ⟨-, rfl⟩ | ⟨fa, -, -, -, ⟨-, -, hm⟩ | ⟨-, -, l₁, l', h₁, h₂, rfl⟩⟩
    · exact .refl _
    · exact moveToDumpsterWith_edits (removeF_edits env fuel) hm
    · exact .of_edits ((dropChunks_edits h₁).trans (unlink_edits h₂))

theorem removeOld_edits {fa : Option MetaFattr} (h : removeOld env fs dir name fa = some (st, fs')) :
    NameEdits fs fs' := by
  unfold removeOld at h
  split_ifs at h
  · exact removeF_edits env 2 h
  · obtain ⟨-, rfl⟩ : 0 = st ∧ fs = fs' := by simpa using h
    exact .refl _

theorem link_edits {t : FileType} {id n : ℤ} (h : link env l dir name t id n = some l') :
    Edits Meta.NotChunk l l' := by
  obtain ⟨-, rfl⟩ := link_spec h
  split_ifs
  · exact (Edits.refl.insert trivial).insert trivial
  · exact Edits.refl.insert trivial

theorem create_edits {newFid id n : ℤ} {exclusive : Bool}
    (h : create env fs dir name newFid n exclusive = some (st, id, fs')) : NameEdits fs fs' := by
  rcases create_spec h with
    ⟨-, rfl⟩ | ⟨-, -, fa, -, -, st₁, fs₁, hr, ⟨-, -, rfl⟩ | ⟨-, -, -, l', hl, rfl⟩⟩
  · exact .refl _
  · exact removeOld_edits hr
  · exact (removeOld_edits hr).trans ⟨link_edits hl, rfl, rfl⟩

/-! ## Files -/

theorem setFattr_edits {fa : MetaFattr} (hid : fa.id = fid) : Edits Meta.NotChunk l (setFattr l fid fa) := by
  refine Edits.refl.update fun x _ hk => ⟨?_, trivial⟩
  obtain ⟨f, rfl, hf⟩ := (eqv_fattr x fid).mp hk
  simp [Meta.key, hf, hid]

theorem truncate_edits {offset a : ℤ} (h : truncate env fs fid offset = some (st, a, fs')) :
    NameEdits fs fs' := by
  rcases truncate_spec h with ⟨-, rfl⟩ | ⟨fa, hf, -, -, ⟨-, -, -, rfl⟩ | ⟨-, -, l₁, hl, rfl⟩⟩
  · exact .refl _
  · exact .of_edits (setFattr_edits (getFattr_some hf).2)
  · exact .of_edits ((deleteChunks_edits hl).trans (setFattr_edits (getFattr_some hf).2))

theorem changeFileReplication_edits {n : ℤ} (h : changeFileReplication fs fid n = (st, fs')) :
    NameEdits fs fs' := by
  unfold changeFileReplication at h
  rcases hf : getFattr fs.leaves fid with - | fa
  · obtain ⟨-, rfl⟩ : -ENOENT = st ∧ fs = fs' := by simpa [hf] using h
    exact .refl _
  · simp only [hf, Prod.mk.injEq] at h
    obtain ⟨-, rfl⟩ := h
    exact .of_edits (setFattr_edits (getFattr_some hf).2)

theorem cleanupDumpster_edits (h : cleanupDumpster env fs = some fs') : NameEdits fs fs' :=
  cleanupDumpster_induct (P := NameEdits fs) (fun _ _ _ _ _ h₁ hr => h₁.trans (removeF_edits env 2 hr))
    (.refl fs) h

theorem emptyDumpsterDir_edits (h : emptyDumpsterDir env fs = some fs') : NameEdits fs fs' := by
  unfold emptyDumpsterDir makeDumpsterDir at h
  simp only [Option.bind_eq_some_iff, Option.map_eq_some_iff, Prod.exists] at h
  obtain ⟨_, ⟨st, id, fs₁, hm, rfl⟩, hc⟩ := h
  exact (mkdir_edits hm).trans (cleanupDumpster_edits hc)

/-! ## Chunks -/

theorem chunkStartOffset_ne (offset : ℤ) : chunkStartOffset offset ≠ -1 := by
  unfold chunkStartOffset CHUNKSIZE
  omega

/-- The chunk that `getChunk` finds among chunks without the wildcard. -/
theorem getChunk_spec (hp : ∀ x ∈ l, x.key.Plain) {b : ℤ} (hb : b ≠ -1) {c : MetaChunkInfo}
    (h : getChunk l fid b = some c) : .chunkinfo c ∈ l ∧ c.id = fid ∧ c.offset = b := by
  rw [getChunk_eq] at h
  have hc := mem_chunks.mp (List.mem_of_find?_eq_some h)
  have hk : c.offset ≠ -1 := hp _ hc
  have := List.find?_some h
  simp only [decide_eq_true_eq] at this
  exact ⟨hc, this.1, this.2.resolve_right (by tauto)⟩

/-- `assignChunkId` writes attributes, and the chunk that it links or changes. -/
theorem assignChunkId_edits {offset chunkId v : ℤ} (hp : ∀ x ∈ fs.leaves, x.key.Plain)
    (h : assignChunkId env fs fid offset chunkId v = (st, fs')) :
    Edits (fun m => m.NotChunk ∨ (∃ c, .chunkinfo c ∈ fs.leaves ∧ m = .chunkinfo { c with chunkVersion := v }) ∨
      m = .chunkinfo ⟨fid, offset, chunkId, v⟩) fs.leaves fs'.leaves := by
  rcases assignChunkId_spec h with
    ⟨-, -, rfl⟩ | ⟨fa, -, ⟨c, -, -, -, rfl⟩ | ⟨c, hc, -, -, rfl⟩ | ⟨-, -, rfl⟩⟩
  · exact .refl
  · exact .refl
  · obtain ⟨hm, hid, ho⟩ := getChunk_spec hp (chunkStartOffset_ne offset) hc
    refine Edits.refl.update fun x hx hk => ⟨?_, Or.inr (Or.inl ⟨c, hm, rfl⟩)⟩
    obtain ⟨c', rfl, hid', ho'⟩ := (eqv_chunk x fid _).mp hk
    have hne : c'.offset ≠ -1 := hp _ hx
    have hs := chunkStartOffset_ne offset
    simp only [Meta.key, hid, hid', ho, Key.mk.injEq, true_and]
    omega
  · refine (Edits.refl.insert (Or.inr (Or.inr rfl))).update fun x _ hk => ?_
    obtain ⟨f, rfl, -⟩ := (eqv_fattr x _).mp hk
    exact ⟨rfl, Or.inl trivial⟩

end Kfs
